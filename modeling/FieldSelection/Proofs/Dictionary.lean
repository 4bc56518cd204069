import FieldSelection.Dictionary
import Mathlib.Data.String.Basic

/-!
# Keys of a dictionary

To erase a key takes back that it was inserted. A dictionary that is made of entries has its keys
in ascending order, so none is there twice, and it has no entry that was not given. Of entries
with different keys it is the one list in that order, so whatever is done to each entry can as
well be done before.
-/

namespace FieldSelection.Dictionary

variable {α : Type}

/-- What was not there is gone when it is erased again. -/
theorem erase_insert {d : Dictionary α} {key : String} (h : d.get? key = none) (value : α) :
    (d.insert key value).erase key = d := by
  induction d with
  | nil => simp [insert, erase]
  | cons entry rest ih =>
      obtain ⟨k, v⟩ := entry
      rw [get?_cons] at h
      have hne : key ≠ k := by
        rintro rfl
        simp at h
      rw [if_neg hne] at h
      have hkeep : (k != key) = true := by simpa using Ne.symm hne
      have hrest : (insert key value rest).filter (·.1 != key) = rest := ih h
      have hall : ∀ entry ∈ rest, (entry.1 != key) = true := by
        intro entry hentry
        rw [← hrest] at hentry
        exact (List.mem_filter.mp hentry).2
      rw [insert]
      split
      · rw [erase, List.filter_cons, List.filter_cons, if_pos hkeep, List.filter_eq_self.mpr hall]
        simp
      · rw [erase, List.filter_cons, if_pos hkeep, hrest]

theorem mem_keys_iff {d : Dictionary α} {key : String} :
    key ∈ d.keys ↔ ∃ value, d.get? key = some value := by
  induction d with
  | nil => simp [keys]
  | cons entry rest ih =>
      obtain ⟨k, v⟩ := entry
      have hkeys : key ∈ keys ((k, v) :: rest) ↔ key = k ∨ key ∈ keys rest := List.mem_cons
      rw [hkeys, get?_cons, ih]
      by_cases h : key = k <;> simp [h]

/-! ## Ascending keys -/

/-- Whether the keys ascend. -/
def Ascending (d : Dictionary α) : Prop := d.Pairwise fun a b => a.1 < b.1

theorem mem_of_mem_insert {d : Dictionary α} {key : String} {value : α} {entry : String × α}
    (h : entry ∈ d.insert key value) : entry = (key, value) ∨ entry ∈ d := by
  induction d with
  | nil => exact Or.inl (List.mem_singleton.mp h)
  | cons e rest ih =>
      obtain ⟨k, v⟩ := e
      rw [insert] at h
      split at h
      · exact List.mem_cons.mp h
      · split at h
        · exact (List.mem_cons.mp h).imp_right (List.mem_cons_of_mem _)
        · rcases List.mem_cons.mp h with rfl | h
          · exact Or.inr List.mem_cons_self
          · exact (ih h).imp_right (List.mem_cons_of_mem _)

theorem Ascending.insert {d : Dictionary α} (h : d.Ascending) (key : String) (value : α) :
    (Dictionary.insert key value d).Ascending := by
  induction d with
  | nil => exact List.pairwise_singleton _ _
  | cons e rest ih =>
      obtain ⟨k, v⟩ := e
      obtain ⟨hk, hrest⟩ := List.pairwise_cons.mp h
      rw [Dictionary.insert]
      split
      · rename_i hlt
        refine List.pairwise_cons.mpr ⟨fun entry hentry => ?_, h⟩
        rcases List.mem_cons.mp hentry with rfl | hentry
        · exact hlt
        · exact lt_trans hlt (hk entry hentry)
      · split
        · rename_i heq
          subst heq
          exact List.pairwise_cons.mpr ⟨hk, hrest⟩
        · rename_i hge hne
          refine List.pairwise_cons.mpr ⟨fun entry hentry => ?_, ih hrest⟩
          rcases mem_of_mem_insert hentry with rfl | hentry
          · exact lt_of_le_of_ne (not_lt.mp hge) (Ne.symm hne)
          · exact hk entry hentry

theorem ascending_ofList (entries : List (String × α)) : (ofList entries).Ascending := by
  have hfold : ∀ d : Dictionary α, d.Ascending →
      (entries.foldl (fun d entry => insert entry.1 entry.2 d) d).Ascending := by
    induction entries with
    | nil => exact fun d hd => hd
    | cons entry rest ih => exact fun d hd => ih _ (hd.insert entry.1 entry.2)
  exact hfold [] List.Pairwise.nil

theorem Ascending.nodup {d : Dictionary α} (h : d.Ascending) : (d.map Prod.fst).Nodup :=
  List.pairwise_map.mpr (h.imp fun hlt => ne_of_lt hlt)

theorem mem_of_mem_ofList {entries : List (String × α)} {entry : String × α}
    (h : entry ∈ ofList entries) : entry ∈ entries := by
  have hfold : ∀ d : Dictionary α,
      entry ∈ entries.foldl (fun d entry => insert entry.1 entry.2 d) d →
        entry ∈ d ∨ entry ∈ entries := by
    clear h
    induction entries with
    | nil => exact fun d hd => Or.inl hd
    | cons e rest ih =>
        intro d hd
        rcases ih _ hd with hd | hrest
        · rcases mem_of_mem_insert hd with rfl | hd
          · exact Or.inr List.mem_cons_self
          · exact Or.inl hd
        · exact Or.inr (List.mem_cons_of_mem _ hrest)
  exact (hfold [] h).resolve_left List.not_mem_nil

theorem ofList_eq_nil_iff {entries : List (String × α)} : ofList entries = [] ↔ entries = [] := by
  constructor
  · intro h
    rcases List.eq_nil_or_concat entries with hnil | ⟨init, last, rfl⟩
    · exact hnil
    · -- the entry that is inserted last is there
      rw [List.concat_eq_append, ofList, List.foldl_append] at h
      have hget := get?_insert (ofList init) last.1 last.1 last.2
      rw [if_pos rfl] at hget
      rw [show insert last.1 last.2 (ofList init) = [] from h] at hget
      exact absurd hget (by simp)
  · rintro rfl
    rfl

theorem mem_of_get? {d : Dictionary α} {key : String} {value : α} (h : d.get? key = some value) :
    (key, value) ∈ d := by
  induction d with
  | nil => exact absurd h (by simp)
  | cons entry rest ih =>
      obtain ⟨k, v⟩ := entry
      rw [get?_cons] at h
      split at h
      · rename_i heq
        cases h
        rw [heq]
        exact List.mem_cons_self
      · exact List.mem_cons_of_mem _ (ih h)

/-! ## Dictionaries of entries with different keys -/

theorem insert_perm {d : Dictionary α} {key : String} (h : key ∉ d.map Prod.fst) (value : α) :
    (d.insert key value).Perm ((key, value) :: d) := by
  induction d with
  | nil => exact List.Perm.refl _
  | cons entry rest ih =>
      obtain ⟨k, v⟩ := entry
      rw [List.map_cons, List.mem_cons, not_or] at h
      rw [insert]
      split
      · exact List.Perm.refl _
      · rw [if_neg h.1]
        exact ((ih h.2).cons (k, v)).trans (List.Perm.swap _ _ _)

/-- If no key is there twice, no entry is lost. -/
theorem ofList_perm {entries : List (String × α)} (h : (entries.map Prod.fst).Nodup) :
    (ofList entries).Perm entries := by
  have hfold : ∀ d : Dictionary α, ((d ++ entries).map Prod.fst).Nodup →
      (entries.foldl (fun d entry => insert entry.1 entry.2 d) d).Perm (d ++ entries) := by
    clear h
    induction entries with
    | nil => exact fun d _ => by simp
    | cons entry rest ih =>
        intro d hd
        have hmiddle : (d ++ entry :: rest).Perm ((entry :: d) ++ rest) := List.perm_middle
        rw [(hmiddle.map Prod.fst).nodup_iff] at hd
        have hnew : entry.1 ∉ d.map Prod.fst := by
          rw [List.cons_append, List.map_cons, List.nodup_cons, List.map_append] at hd
          exact fun hmem => hd.1 (List.mem_append_left _ hmem)
        have hinsert := insert_perm hnew entry.2
        have hmore : (insert entry.1 entry.2 d ++ rest).Perm ((entry :: d) ++ rest) :=
          hinsert.append_right rest
        rw [← (hmore.map Prod.fst).nodup_iff] at hd
        exact (ih _ hd).trans (hmore.trans hmiddle.symm)
  exact hfold [] h

/-- The order of its keys makes a dictionary. -/
theorem Ascending.eq_of_perm {d₁ d₂ : Dictionary α} (h₁ : d₁.Ascending) (h₂ : d₂.Ascending)
    (h : d₁.Perm d₂) : d₁ = d₂ :=
  h.eq_of_pairwise (fun _ _ _ _ hab hba => absurd (lt_trans hab hba) (lt_irrefl _)) h₁ h₂

theorem ofList_of_ascending {d : Dictionary α} (h : d.Ascending) : ofList d = d :=
  (ascending_ofList d).eq_of_perm h (ofList_perm h.nodup)

theorem insert_map {β : Type} (f : α → β) (key : String) (value : α) (d : Dictionary α) :
    insert key (f value) (d.map fun entry => (entry.1, f entry.2)) =
      (d.insert key value).map fun entry => (entry.1, f entry.2) := by
  induction d with
  | nil => rfl
  | cons entry rest ih =>
      obtain ⟨k, v⟩ := entry
      rw [List.map_cons, insert, insert]
      split
      · rfl
      · split
        · rfl
        · rw [ih]
          rfl

theorem ofList_map {β : Type} (f : α → β) (entries : List (String × α)) :
    ofList (entries.map fun entry => (entry.1, f entry.2)) =
      (ofList entries).map fun entry => (entry.1, f entry.2) := by
  have hfold : ∀ d : Dictionary α,
      (entries.map fun entry => (entry.1, f entry.2)).foldl
          (fun d entry => insert entry.1 entry.2 d) (d.map fun entry => (entry.1, f entry.2)) =
        (entries.foldl (fun d entry => insert entry.1 entry.2 d) d).map
          fun entry => (entry.1, f entry.2) := by
    induction entries with
    | nil => exact fun d => rfl
    | cons entry rest ih =>
        intro d
        rw [List.map_cons, List.foldl_cons, List.foldl_cons, ← ih, ← insert_map]
  exact hfold []

/-- Where no key is there twice, it makes no difference whether entries are left out of the list
or of the dictionary. -/
theorem ofList_filterMap {β : Type} {g : String × α → Option (String × β)}
    (hkey : ∀ entry kept, g entry = some kept → kept.1 = entry.1) {entries : List (String × α)}
    (h : (entries.map Prod.fst).Nodup) :
    (ofList entries).filterMap g = ofList (entries.filterMap g) := by
  have hnodup : ((entries.filterMap g).map Prod.fst).Nodup := by
    refine List.pairwise_map.mpr (List.pairwise_filterMap.mpr ?_)
    refine (List.pairwise_map.mp h).imp fun hne a ha b hb => ?_
    rw [hkey _ _ ha, hkey _ _ hb]
    exact hne
  have hascending : Ascending ((ofList entries).filterMap g) := by
    refine List.pairwise_filterMap.mpr ((ascending_ofList entries).imp fun hlt a ha b hb => ?_)
    rw [hkey _ _ ha, hkey _ _ hb]
    exact hlt
  exact hascending.eq_of_perm (ascending_ofList _)
    (((ofList_perm h).filterMap g).trans (ofList_perm hnodup).symm)

end FieldSelection.Dictionary

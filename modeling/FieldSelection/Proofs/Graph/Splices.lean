import FieldSelection.Proofs.Graph.Children
import FieldSelection.Proofs.Search
import Mathlib.Data.List.Nodup
import Mathlib.Data.List.Perm.Basic
import Mathlib.Logic.Relation

/-!
# Where children come from

The children of a node are owned by itself or by a node that it sees through splices, one after
the other. The search follows no splice twice and may go round in circles, so a splice that is
passed over must have been followed before. What it has followed at the end are all the nodes that
are seen, and of each of them all children are taken, once.
-/

namespace FieldSelection

/-- The child that a link owns. -/
def Link.child? : Link → Option NodeId
  | .owned child => some child
  | .spliced _ => none

/-- The children that some links own, in order. -/
def Link.ownedBy (links : List Link) : List NodeId := links.filterMap Link.child?

namespace Link

theorem mem_ownedBy {links : List Link} {c : NodeId} : c ∈ ownedBy links ↔ .owned c ∈ links := by
  rw [ownedBy, List.mem_filterMap]
  constructor
  · rintro ⟨link, hlink, hc⟩
    cases link with
    | owned child =>
        cases hc
        exact hlink
    | spliced source => exact absurd hc (by simp [child?])
  · intro h
    exact ⟨_, h, rfl⟩

theorem ownedBy_append (links links' : List Link) :
    ownedBy (links ++ links') = ownedBy links ++ ownedBy links' :=
  List.filterMap_append

@[simp] theorem ownedBy_spliced_cons (r : NodeId) (links : List Link) :
    ownedBy (.spliced r :: links) = ownedBy links := rfl

end Link

namespace Graph

/-- The children that a node owns itself. -/
def owned (g : Graph) (n : NodeId) : List NodeId := Link.ownedBy (g.links n)

/-- Whether the children of a node show up at `n`: it is `n` itself, or spliced in there by way of
one or more splices. -/
inductive Sees (g : Graph) (n : NodeId) : NodeId → Prop where
  /-- A node sees itself. -/
  | self : Sees g n n
  /-- It sees what is spliced into a node that it sees. -/
  | splice {m r : NodeId} : Sees g n m → .spliced r ∈ g.links m → r < g.size → Sees g n r

variable {g : Graph} {n : NodeId}

theorem mem_owned {c : NodeId} : c ∈ g.owned n ↔ .owned c ∈ g.links n := Link.mem_ownedBy

theorem eq_of_sees_of_size_le (hn : g.size ≤ n) {m : NodeId} (h : g.Sees n m) : m = n := by
  induction h with
  | self => rfl
  | splice _ hr _ ih =>
      rw [ih, links_eq_nil_of_size_le hn] at hr
      exact absurd hr List.not_mem_nil

theorem Sees.trans {m k : NodeId} (h : g.Sees n m) (h' : g.Sees m k) : g.Sees n k := by
  induction h' with
  | self => exact h
  | splice _ hr hlt ih => exact .splice ih hr hlt

/-- Whether a node splices in another one. -/
def Splices (g : Graph) (n r : NodeId) : Prop := .spliced r ∈ g.links n

/-- What a node sees is itself, or what one or more splices lead to. -/
theorem Sees.eq_or_transGen {m : NodeId} (h : g.Sees n m) :
    m = n ∨ Relation.TransGen g.Splices n m := by
  induction h with
  | self => exact Or.inl rfl
  | splice _ hr _ ih =>
      rcases ih with rfl | hreached
      · exact Or.inr (.single hr)
      · exact Or.inr (hreached.tail hr)

/-- What splices lead to is seen, if it is a node. The nodes before it are, as they have links. -/
theorem sees_of_transGen {m : NodeId} (h : Relation.TransGen g.Splices n m) (hlt : m < g.size) :
    g.Sees n m := by
  induction h with
  | single hr => exact .splice .self hr hlt
  | tail _ hr ih => exact .splice (ih (lt_size_of_mem_links hr)) hr hlt

/-! ## One step of the search -/

/-- Links that are passed over before the next splice is followed, or before the end. -/
theorem nextSplice_cases (g : Graph) (followed : List NodeId) (links : List Link) :
    ∃ passed, (∀ r, .spliced r ∈ passed → r < g.size → r ∈ followed) ∧
      ((links = passed ∧ g.nextSplice followed links = (Link.ownedBy passed, none)) ∨
        ∃ r rest, links = passed ++ .spliced r :: rest ∧ r ∉ followed ∧ r < g.size ∧
          g.nextSplice followed links = (Link.ownedBy passed, some (r, rest))) := by
  induction links with
  | nil => exact ⟨[], by simp, Or.inl ⟨rfl, rfl⟩⟩
  | cons link links ih =>
      obtain ⟨passed, hpassed, hcases⟩ := ih
      cases link with
      | owned c =>
          refine ⟨.owned c :: passed, by simpa using hpassed, ?_⟩
          rcases hcases with ⟨rfl, hnext⟩ | ⟨r, rest, rfl, hnew, hlt, hnext⟩
          · exact Or.inl ⟨rfl, by rw [nextSplice, hnext]; rfl⟩
          · exact Or.inr ⟨r, rest, rfl, hnew, hlt, by rw [nextSplice, hnext]; rfl⟩
      | spliced s =>
          by_cases hs : s ∈ followed ∨ g.size ≤ s
          · have hskip : g.nextSplice followed (.spliced s :: links) =
                g.nextSplice followed links := by
              rw [nextSplice, if_pos hs]
            refine ⟨.spliced s :: passed, ?_, ?_⟩
            · intro r hr hlt
              rcases List.mem_cons.mp hr with heq | hr
              · have hrs : r = s := Link.spliced.inj heq
                have hmem : s ∈ followed := hs.resolve_right (by omega)
                rwa [hrs]
              · exact hpassed r hr hlt
            · rw [hskip]
              rcases hcases with ⟨rfl, hnext⟩ | ⟨r, rest, rfl, hnew, hlt, hnext⟩
              · exact Or.inl ⟨rfl, hnext⟩
              · exact Or.inr ⟨r, rest, rfl, hnew, hlt, hnext⟩
          · have hnew : s ∉ followed := fun h => hs (Or.inl h)
            have hlt : s < g.size := Nat.lt_of_not_le fun h => hs (Or.inr h)
            refine ⟨[], by simp, Or.inr ⟨s, links, rfl, hnew, hlt, ?_⟩⟩
            rw [nextSplice, if_neg hs]
            rfl

/-! ## The whole search -/

/-- What is true while the children of `n` are looked up: there is budget for every node that was
not followed yet, what was followed is seen, and the splices of followed nodes were followed or
are still to come. The children in `taken` are those of the followed nodes that are not among the
links to come. -/
structure Expanding (g : Graph) (n : NodeId) (budget : Nat) (followed : List NodeId)
    (links : List Link) (taken : List NodeId) : Prop where
  enough : g.size ≤ budget + followed.length
  nodup : followed.Nodup
  lt : ∀ m ∈ followed, m < g.size
  start : n ∈ followed
  sees : ∀ m ∈ followed, g.Sees n m
  pending : ∀ r, .spliced r ∈ links → r < g.size → g.Sees n r
  next : ∀ m ∈ followed, ∀ r, .spliced r ∈ g.links m → r < g.size →
    r ∈ followed ∨ .spliced r ∈ links
  account : (taken ++ Link.ownedBy links).Perm (followed.flatMap g.owned)

namespace Expanding

variable {budget : Nat} {followed taken : List NodeId} {links passed rest : List Link} {r : NodeId}

theorem init (hn : n < g.size) : Expanding g n g.size [n] (g.links n) [] where
  enough := Nat.le_add_right _ _
  nodup := List.nodup_singleton n
  lt := by simpa using hn
  start := List.mem_singleton_self n
  sees := by
    intro m hm
    rw [List.mem_singleton.mp hm]
    exact .self
  pending := fun r hr hlt => .splice .self hr hlt
  next := by
    intro m hm r hr _
    rw [List.mem_singleton.mp hm] at hr
    exact Or.inr hr
  account := by simp [owned]

/-- Where no splice is to come that was not followed, all that is seen was followed. -/
theorem mem_followed_iff (h : Expanding g n budget followed links taken)
    (hdone : ∀ r, .spliced r ∈ links → r < g.size → r ∈ followed) (m : NodeId) :
    m ∈ followed ↔ g.Sees n m := by
  refine ⟨h.sees m, fun hm => ?_⟩
  induction hm with
  | self => exact h.start
  | splice _ hr hlt ih =>
      rcases h.next _ ih _ hr hlt with hfollowed | hpending
      · exact hfollowed
      · exact hdone _ hpending hlt

/-- There is budget for a splice that was not followed. -/
theorem budget_pos (h : Expanding g n budget followed links taken) (hnew : r ∉ followed)
    (hlt : r < g.size) : 0 < budget :=
  budget_pos_of_not_mem h.enough h.nodup h.lt hnew hlt

/-- To follow a splice puts the links of its source in its place. -/
theorem follow (h : Expanding g n (budget + 1) followed (passed ++ .spliced r :: rest) taken)
    (hpassed : ∀ s, .spliced s ∈ passed → s < g.size → s ∈ followed) (hnew : r ∉ followed)
    (hlt : r < g.size) :
    Expanding g n budget (r :: followed) (g.links r ++ rest) (taken ++ Link.ownedBy passed) where
  enough := by
    have henough := h.enough
    rw [List.length_cons]
    omega
  nodup := List.nodup_cons.mpr ⟨hnew, h.nodup⟩
  lt := by
    intro m hm
    rcases List.mem_cons.mp hm with rfl | hm
    · exact hlt
    · exact h.lt m hm
  start := List.mem_cons_of_mem r h.start
  sees := by
    intro m hm
    rcases List.mem_cons.mp hm with rfl | hm
    · exact h.pending m (by simp) hlt
    · exact h.sees m hm
  pending := by
    intro s hs hslt
    rcases List.mem_append.mp hs with hs | hs
    · exact .splice (h.pending r (by simp) hlt) hs hslt
    · exact h.pending s (by simp [hs]) hslt
  next := by
    intro m hm s hs hslt
    rcases List.mem_cons.mp hm with rfl | hm
    · exact Or.inr (List.mem_append_left _ hs)
    · rcases h.next m hm s hs hslt with hfollowed | hpending
      · exact Or.inl (List.mem_cons_of_mem r hfollowed)
      · rcases List.mem_append.mp hpending with hpass | hrest
        · exact Or.inl (List.mem_cons_of_mem r (hpassed s hpass hslt))
        · rcases List.mem_cons.mp hrest with heq | hrest
          · have hsr : s = r := Link.spliced.inj heq
            exact Or.inl (hsr ▸ List.mem_cons_self)
          · exact Or.inr (List.mem_append_right _ hrest)
  account := by
    have hold := h.account
    rw [Link.ownedBy_append, Link.ownedBy_spliced_cons, ← List.append_assoc] at hold
    rw [Link.ownedBy_append, List.flatMap_cons]
    -- the children of the source come in front of those that were there
    have hswap : (taken ++ Link.ownedBy passed ++
          (Link.ownedBy (g.links r) ++ Link.ownedBy rest)).Perm
        (Link.ownedBy (g.links r) ++ (taken ++ Link.ownedBy passed ++ Link.ownedBy rest)) := by
      rw [← List.append_assoc, ← List.append_assoc]
      exact List.Perm.append_right _ List.perm_append_comm
    exact hswap.trans (hold.append_left _)

end Expanding

/-- **The search ends, and has taken the children of all nodes that are seen.** -/
theorem resolve?_perm (budget : Nat) : ∀ {followed taken : List NodeId} {links : List Link},
    Expanding g n budget followed links taken →
    ∃ cs, ∃ sources : List NodeId, g.resolve? budget followed links = some cs ∧ sources.Nodup ∧
      (∀ m, m ∈ sources ↔ g.Sees n m) ∧ (taken ++ cs).Perm (sources.flatMap g.owned) := by
  induction budget using Nat.strongRecOn with
  | ind budget ih =>
      intro followed taken links h
      obtain ⟨passed, hpassed, hcases⟩ := nextSplice_cases g followed links
      rcases hcases with ⟨rfl, hnext⟩ | ⟨r, rest, rfl, hnew, hlt, hnext⟩
      · refine ⟨Link.ownedBy links, followed, ?_, h.nodup, h.mem_followed_iff hpassed, h.account⟩
        rw [resolve?, hnext]
      · obtain ⟨fewer, rfl⟩ :=
          Nat.exists_eq_add_one_of_ne_zero (Nat.ne_of_gt (h.budget_pos hnew hlt))
        obtain ⟨cs, sources, hresolve, hnodup, hsees, hperm⟩ :=
          ih fewer (Nat.lt_succ_self fewer) (h.follow hpassed hnew hlt)
        refine ⟨Link.ownedBy passed ++ cs, sources, ?_, hnodup, hsees, ?_⟩
        · rw [resolve?, hnext]
          dsimp only
          rw [hresolve]
          rfl
        · rwa [← List.append_assoc]

theorem children_perm (g : Graph) (n : NodeId) :
    ∃ sources : List NodeId, sources.Nodup ∧ (∀ m, m ∈ sources ↔ g.Sees n m) ∧
      (g.children n).Perm (sources.flatMap g.owned) := by
  by_cases hn : n < g.size
  · obtain ⟨cs, sources, hresolve, hnodup, hsees, hperm⟩ := resolve?_perm g.size (.init hn)
    refine ⟨sources, hnodup, hsees, ?_⟩
    rw [children, hresolve]
    exact hperm
  · have hge := Nat.le_of_not_lt hn
    refine ⟨[n], List.nodup_singleton n, fun m => ?_, ?_⟩
    · rw [List.mem_singleton]
      exact ⟨fun h => h ▸ .self, eq_of_sees_of_size_le hge⟩
    · rw [children_eq_nil_of_size_le hge]
      simp [owned, links_eq_nil_of_size_le hge, Link.ownedBy]

/-- **The children of a node are those that are owned by a node that it sees.** -/
theorem mem_children_iff_owned {c : NodeId} :
    c ∈ g.children n ↔ ∃ m, g.Sees n m ∧ .owned c ∈ g.links m := by
  obtain ⟨sources, _, hsees, hperm⟩ := g.children_perm n
  rw [hperm.mem_iff, List.mem_flatMap]
  constructor
  · rintro ⟨m, hm, hc⟩
    exact ⟨m, (hsees m).mp hm, mem_owned.mp hc⟩
  · rintro ⟨m, hm, hc⟩
    exact ⟨m, (hsees m).mpr hm, mem_owned.mpr hc⟩

/-- **They are owned by the node itself, or by one that one or more splices lead to.** -/
theorem mem_children_iff_reached {c : NodeId} :
    c ∈ g.children n ↔
      .owned c ∈ g.links n ∨ ∃ m, Relation.TransGen g.Splices n m ∧ .owned c ∈ g.links m := by
  rw [mem_children_iff_owned]
  constructor
  · rintro ⟨m, hm, hc⟩
    rcases hm.eq_or_transGen with rfl | hreached
    · exact Or.inl hc
    · exact Or.inr ⟨m, hreached, hc⟩
  · intro h
    rcases h with hc | ⟨m, hreached, hc⟩
    · exact ⟨n, .self, hc⟩
    · exact ⟨m, sees_of_transGen hreached (lt_size_of_mem_links hc), hc⟩

/-- Where every child is owned once, no child is there twice. -/
theorem nodup_children (honce : ∀ m, (g.owned m).Nodup)
    (howner : ∀ m m' c, .owned c ∈ g.links m → .owned c ∈ g.links m' → m = m') (n : NodeId) :
    (g.children n).Nodup := by
  obtain ⟨sources, hnodup, _, hperm⟩ := g.children_perm n
  rw [hperm.nodup_iff, List.nodup_flatMap]
  refine ⟨fun m _ => honce m, hnodup.imp ?_⟩
  intro m m' hne c hc hc'
  exact hne (howner m m' c (mem_owned.mp hc) (mem_owned.mp hc'))

/-! ## What a node sees, computed -/

/-- The graph with the same splices in which each node owns itself and nothing else. -/
def withSelves (g : Graph) : Graph :=
  ⟨g.nodes.mapIdx fun n node =>
    ⟨node.label, .owned n :: node.links.filter fun link => link.child?.isNone⟩⟩

/-- The nodes that a node sees. Where each of them owns itself, they are its children. -/
def seen (g : Graph) (n : NodeId) : List NodeId := g.withSelves.children n

@[simp] theorem size_withSelves (g : Graph) : g.withSelves.size = g.size := by
  simp [withSelves, size]

theorem links_withSelves (hn : n < g.size) :
    g.withSelves.links n = .owned n :: (g.links n).filter fun link => link.child?.isNone := by
  have hnode : g.nodes[n]? = some g.nodes[n] := Array.getElem?_eq_getElem hn
  simp [withSelves, links, hnode]

theorem owned_mem_withSelves {c : NodeId} :
    .owned c ∈ g.withSelves.links n ↔ c = n ∧ n < g.size := by
  constructor
  · intro h
    have hn : n < g.size := by
      rw [← size_withSelves]
      exact lt_size_of_mem_links h
    rw [links_withSelves hn] at h
    exact ⟨by simpa [Link.child?] using h, hn⟩
  · rintro ⟨rfl, hn⟩
    rw [links_withSelves hn]
    exact List.mem_cons_self

theorem spliced_mem_withSelves {r : NodeId} :
    .spliced r ∈ g.withSelves.links n ↔ .spliced r ∈ g.links n := by
  rcases Nat.lt_or_ge n g.size with hn | hge
  · rw [links_withSelves hn]
    simp [Link.child?]
  · have hge' : g.withSelves.size ≤ n := by rwa [size_withSelves]
    rw [links_eq_nil_of_size_le hge, links_eq_nil_of_size_le hge']

theorem sees_withSelves {m : NodeId} : g.withSelves.Sees n m ↔ g.Sees n m := by
  constructor
  · intro h
    induction h with
    | self => exact .self
    | splice _ hr hlt ih =>
        rw [size_withSelves] at hlt
        exact .splice ih (spliced_mem_withSelves.mp hr) hlt
  · intro h
    induction h with
    | self => exact .self
    | splice _ hr hlt ih =>
        rw [← size_withSelves] at hlt
        exact .splice ih (spliced_mem_withSelves.mpr hr) hlt

theorem mem_seen_iff {m : NodeId} : m ∈ g.seen n ↔ g.Sees n m ∧ m < g.size := by
  rw [seen, mem_children_iff_owned]
  constructor
  · rintro ⟨k, hk, hm⟩
    obtain ⟨rfl, hlt⟩ := owned_mem_withSelves.mp hm
    exact ⟨sees_withSelves.mp hk, hlt⟩
  · rintro ⟨hm, hlt⟩
    exact ⟨m, sees_withSelves.mpr hm, owned_mem_withSelves.mpr ⟨rfl, hlt⟩⟩

theorem sees_iff_mem_seen {m : NodeId} : g.Sees n m ↔ m = n ∨ m ∈ g.seen n := by
  constructor
  · intro h
    cases h with
    | self => exact Or.inl rfl
    | splice hk hr hlt => exact Or.inr (mem_seen_iff.mpr ⟨.splice hk hr hlt, hlt⟩)
  · rintro (rfl | h)
    · exact .self
    · exact (mem_seen_iff.mp h).1

instance (g : Graph) (n m : NodeId) : Decidable (g.Sees n m) :=
  decidable_of_iff _ sees_iff_mem_seen.symm

end Graph

end FieldSelection

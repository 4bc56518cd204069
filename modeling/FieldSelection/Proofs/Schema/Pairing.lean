import FieldSelection.Proofs.Schema.Growth
import FieldSelection.Proofs.Tree.Pairing
import Mathlib.Data.List.Zip

/-!
# Graphs of the same definitions

Two graphs that were compiled from the same definitions may have their nodes in a different
order, and one may have nodes for schemas that the other does not know. But the roots of one
name are partners, and so are the children that partners own, one after the other. As partners
have the same meaning, no child is left over and splices lead to partners again. A child has one
owner and a root has one name, so no node has two partners.
-/

namespace FieldSelection

/-- Whether two nodes were made for the same place in the definitions. -/
inductive Paired (c c' : Compilation) : NodeId → NodeId → Prop where
  /-- They are the roots of one name. -/
  | root {name : String} {a b : NodeId} :
      c.roots.get? name = some a → c'.roots.get? name = some b → Paired c c' a b
  /-- They are children of partners, at the same position. -/
  | child {a b x y : NodeId} {cs cs' : List NodeId} :
      Paired c c' a b → c.graph.links a = Link.owning cs → c'.graph.links b = Link.owning cs' →
      (x, y) ∈ cs.zip cs' → Paired c c' x y

variable {d : Dictionary Schema} {c c' : Compilation} {m m' : Meaning} {a b : NodeId}

/-! ## Lists side by side -/

/-- Members of two lists that belong to the same members of a third belong to each other. -/
theorem forall₂_of_common {α β γ : Type} {R : α → γ → Prop} {S : β → γ → Prop}
    {T : α → β → Prop} {xs : List α} {ys : List β} {zs : List γ} (hx : List.Forall₂ R xs zs)
    (hy : List.Forall₂ S ys zs) (hT : ∀ x y z, R x z → S y z → T x y) : List.Forall₂ T xs ys := by
  induction hx generalizing ys with
  | nil =>
      cases hy
      exact .nil
  | cons hxz _ ih =>
      cases hy with
      | cons hyz hy => exact .cons (hT _ _ _ hxz hyz) (ih hy)

/-- A member that is there once stands beside one other. -/
theorem eq_of_mem_zip {α β : Type} {xs : List α} {ys : List β} (hnodup : xs.Nodup) {x : α}
    {y y' : β} (h : (x, y) ∈ xs.zip ys) (h' : (x, y') ∈ xs.zip ys) : y = y' := by
  induction xs generalizing ys with
  | nil => exact absurd h (by simp)
  | cons x₀ xs ih =>
      obtain ⟨hx₀, hrest⟩ := List.nodup_cons.mp hnodup
      cases ys with
      | nil => exact absurd h (by simp)
      | cons y₀ ys =>
          rw [List.zip_cons_cons, List.mem_cons] at h h'
          rcases h with heq | h
          · rcases h' with heq' | h'
            · rw [(Prod.mk.inj heq).2, (Prod.mk.inj heq').2]
            · rw [(Prod.mk.inj heq).1] at h'
              exact absurd (List.of_mem_zip h').1 hx₀
          · rcases h' with heq' | h'
            · rw [(Prod.mk.inj heq').1] at h
              exact absurd (List.of_mem_zip h).1 hx₀
            · exact ih hrest h h'

/-! ## What partners have in common -/

/-- Whether two nodes have the same label and the same meaning. -/
structure Agree (c : Compilation) (m : Meaning) (c' : Compilation) (m' : Meaning)
    (a b : NodeId) : Prop where
  /-- One node is there. -/
  left_lt : a < c.graph.size
  /-- So is the other. -/
  right_lt : b < c'.graph.size
  /-- They have the same label. -/
  label : c.graph.label a = c'.graph.label b
  /-- They have the same meaning. -/
  meaning : m a = m' b

/-- Nodes that agree own children that agree, or splice in the roots of the same name. -/
theorem Agree.links (h : Agree c m c' m' a b) (hb : Building d [] c m)
    (hb' : Building d [] c' m') :
    (∃ cs cs', c.graph.links a = Link.owning cs ∧ c'.graph.links b = Link.owning cs' ∧
      List.Forall₂ (Agree c m c' m') cs cs') ∨
    ∃ target r r', c.roots.get? target = some r ∧ c'.roots.get? target = some r' ∧
      (c.graph.links a = [.spliced r] ∧ r ≠ a) ∧ c'.graph.links b = [.spliced r'] ∧ r' ≠ b := by
  have hmeaning := h.meaning
  -- the meaning says which of the three ways to be finished it is, the same one for both
  cases hb.finished a h.left_lt List.not_mem_nil with
  | @anything k hm hlinks hlabel hbelow =>
      cases hb'.finished b h.right_lt List.not_mem_nil with
      | @anything k' hm' hlinks' hlabel' hbelow' =>
          refine Or.inl ⟨[k], [k'], hlinks, hlinks', .cons ⟨?_, ?_, ?_, ?_⟩ .nil⟩
          · exact Graph.lt_size_of_label hlabel
          · exact Graph.lt_size_of_label hlabel'
          · rw [hlabel, hlabel']
          · rw [hbelow, hbelow']
      | fields hm' => simp [hm, hm'] at hmeaning
      | spliced hm' => simp [hm, hm'] at hmeaning
  | fields hm hlinks hchildren =>
      cases hb'.finished b h.right_lt List.not_mem_nil with
      | anything hm' => simp [hm, hm'] at hmeaning
      | fields hm' hlinks' hchildren' =>
          rw [hm, hm'] at hmeaning
          cases hmeaning
          refine Or.inl ⟨_, _, hlinks, hlinks', forall₂_of_common hchildren hchildren' ?_⟩
          intro x y field hx hy
          exact ⟨hx.lt, hy.lt, hx.label.trans hy.label.symm, hx.meaning.trans hy.meaning.symm⟩
      | spliced hm' => simp [hm, hm'] at hmeaning
  | @spliced target r hm hlabel hlinks hroot =>
      cases hb'.finished b h.right_lt List.not_mem_nil with
      | anything hm' => simp [hm, hm'] at hmeaning
      | fields hm' => simp [hm, hm'] at hmeaning
      | @spliced target' r' hm' hlabel' hlinks' hroot' =>
          rw [hm, hm'] at hmeaning
          cases hmeaning
          refine Or.inr ⟨target, r, r', hroot, hroot', ⟨hlinks, ?_⟩, hlinks', ?_⟩
          · rintro rfl
            exact hlabel (hb.root target r hroot).2.1
          · rintro rfl
            exact hlabel' (hb'.root target r' hroot').2.1

namespace Paired

theorem symm (h : Paired c c' a b) : Paired c' c b a := by
  induction h with
  | root ha hb => exact .root hb ha
  | @child a b x y cs cs' _ ha hb hxy ih =>
      refine .child ih hb ha ?_
      rw [← List.zip_swap]
      exact List.mem_map_of_mem (f := Prod.swap) hxy

/-- Roots of one name agree. -/
theorem agree_root (hb : Building d [] c m) (hb' : Building d [] c' m') {name : String}
    (ha : c.roots.get? name = some a) (hb₀ : c'.roots.get? name = some b) :
    Agree c m c' m' a b := by
  obtain ⟨hlt, hlabel, hmeaning⟩ := hb.root name a ha
  obtain ⟨hlt', hlabel', hmeaning'⟩ := hb'.root name b hb₀
  exact ⟨hlt, hlt', hlabel.trans hlabel'.symm, hmeaning.trans hmeaning'.symm⟩

/-- Partners agree. -/
theorem agree (h : Paired c c' a b) (hb : Building d [] c m) (hb' : Building d [] c' m') :
    Agree c m c' m' a b := by
  induction h with
  | root hget hget' => exact agree_root hb hb' hget hget'
  | @child a b x y cs cs' _ hlinks hlinks' hxy ih =>
      rcases ih.links hb hb' with ⟨ds, ds', heq, heq', hagree⟩ | ⟨_, r, _, _, _, ⟨heq, _⟩, _⟩
      · cases Link.owning_inj (hlinks.symm.trans heq)
        cases Link.owning_inj (hlinks'.symm.trans heq')
        exact (List.forall₂_iff_zip.mp hagree).2 hxy
      · -- who splices does not own
        have hmem : Link.spliced r ∈ Link.owning cs := by rw [← hlinks, heq]; simp
        simp [Link.owning] at hmem

/-- The children of partners are owned by partners, as many of them on both sides. -/
theorem owners (h : Paired c c' a b) (hb : Building d [] c m) (hb' : Building d [] c' m') :
    ∃ o o', Paired c c' o o' ∧ c.graph.links o = Link.owning (c.graph.children a) ∧
      c'.graph.links o' = Link.owning (c'.graph.children b) ∧
      (c.graph.children a).length = (c'.graph.children b).length := by
  rcases (h.agree hb hb').links hb hb' with
    ⟨cs, cs', hlinks, hlinks', hagree⟩ | ⟨target, r, r', hr, hr', ⟨hlinks, hne⟩, hlinks', hne'⟩
  · rw [Graph.children_of_owning hlinks, Graph.children_of_owning hlinks']
    exact ⟨a, b, h, hlinks, hlinks', hagree.length_eq⟩
  · -- what is spliced in belongs to the roots
    obtain ⟨cs, hcs, hfields⟩ := hb.root_links hr
    obtain ⟨cs', hcs', hfields'⟩ := hb'.root_links hr'
    rw [Graph.children_of_spliced hlinks hne (hb.root target r hr).1 hcs,
      Graph.children_of_spliced hlinks' hne' (hb'.root target r' hr').1 hcs']
    exact ⟨r, r', .root hr hr', hcs, hcs', hfields.length_eq.trans hfields'.length_eq.symm⟩

/-- The children of partners are partners. -/
theorem children (h : Paired c c' a b) (hb : Building d [] c m) (hb' : Building d [] c' m') :
    List.Forall₂ (Paired c c') (c.graph.children a) (c'.graph.children b) := by
  obtain ⟨o, o', hpaired, hlinks, hlinks', hlength⟩ := h.owners hb hb'
  rw [List.forall₂_iff_zip]
  exact ⟨hlength, fun hxy => .child hpaired hlinks hlinks' hxy⟩

/-! ## One partner each -/

/-- A root is nobody's child. -/
theorem root_ne_child (hb : Building d [] c m) {name : String} {o x : NodeId} {cs : List NodeId}
    (hget : c.roots.get? name = some x) (hlinks : c.graph.links o = Link.owning cs) : x ∉ cs := by
  intro hx
  have howned : Link.owned x ∈ c.graph.links o := by
    rw [hlinks]
    exact Link.owned_mem_owning.mpr hx
  exact hb.owned.label howned (hb.root name x hget).2.1

theorem right_unique (hb : Building d [] c m) {b' : NodeId} (h : Paired c c' a b)
    (h' : Paired c c' a b') : b = b' := by
  induction h generalizing b' with
  | @root name a b ha hb₀ =>
      cases h' with
      | @root name' _ _ ha' hb₀' =>
          cases hb.distinct name name' a ha ha'
          exact Option.some.inj (hb₀.symm.trans hb₀')
      | child _ hlinks _ hxy => exact absurd (List.of_mem_zip hxy).1 (root_ne_child hb ha hlinks)
  | @child o o' x y cs cs' _ hlinks hlinks' hxy ih =>
      cases h' with
      | root ha' => exact absurd (List.of_mem_zip hxy).1 (root_ne_child hb ha' hlinks)
      | @child p p' _ _ ds ds' hpaired heq heq' hxy' =>
          have howned : ∀ {q es}, c.graph.links q = Link.owning es → x ∈ es →
              Link.owned x ∈ c.graph.links q := by
            intro q es hq hx
            rw [hq]
            exact Link.owned_mem_owning.mpr hx
          -- the owner is the same, so its partner and the children of that are
          cases hb.owned.owner (howned hlinks (List.of_mem_zip hxy).1)
            (howned heq (List.of_mem_zip hxy').1)
          cases ih hpaired
          cases Link.owning_inj (hlinks.symm.trans heq)
          cases Link.owning_inj (hlinks'.symm.trans heq')
          exact eq_of_mem_zip (hb.owned.siblings hlinks).of_map hxy hxy'

theorem left_unique (hb' : Building d [] c' m') {a' : NodeId} (h : Paired c c' a b)
    (h' : Paired c c' a' b) : a = a' :=
  right_unique hb' h.symm h'.symm

/-- **Graphs of the same definitions can be paired.** -/
theorem isPairing (hb : Building d [] c m) (hb' : Building d [] c' m') :
    Graph.IsPairing c.graph c'.graph (Paired c c') where
  lt := fun h => ⟨(h.agree hb hb').left_lt, (h.agree hb hb').right_lt⟩
  label := fun h => (h.agree hb hb').label
  children := fun h => h.children hb hb'
  siblings := by
    intro a b h
    obtain ⟨_, _, _, _, hlinks', _⟩ := h.owners hb hb'
    exact hb'.owned.siblings hlinks'
  unique := ⟨fun _ _ _ h h' => left_unique hb' h h', fun _ _ _ h h' => right_unique hb h h'⟩

end Paired

end FieldSelection

import FieldSelection.Proofs.Graph.Splices

/-!
# Children in order

The children of a node are collected link by link. Where a link splices in a node that was not
followed before, the children of that one are collected first, and then the walk goes on with the
next link, knowing what was followed in between. `Collects` is this walk, with all that is followed
at its end. The search behind `children` keeps the links that are still to come in one list, and
comes to the same children in the same order.

The walk says more than which children there are. What it finds at a link depends on what was
followed before, so the children of two lists of links, one after the other, are not simply those
of the first and those of the second. They are if whatever both come to has no children of its own:
then nothing is lost where the second walk passes over what the first one has followed.
-/

namespace FieldSelection.Graph

variable {g : Graph} {n r : NodeId} {followed followed' followed₁ followed₂ : List NodeId}
  {links rest passed : List Link} {cs ds : List NodeId}

/-- Collecting the children of some links, when these nodes were followed already, gives these
children, and then these nodes were followed. -/
inductive Collects (g : Graph) :
    List NodeId → List Link → List NodeId → List NodeId → Prop where
  /-- There are no links left. -/
  | done {followed : List NodeId} : Collects g followed [] [] followed
  /-- A child that is owned. -/
  | owned {followed followed' cs : List NodeId} {rest : List Link} {c : NodeId} :
      Collects g followed rest cs followed' →
      Collects g followed (.owned c :: rest) (c :: cs) followed'
  /-- A splice that was followed before, or leads nowhere. -/
  | passed {followed followed' cs : List NodeId} {rest : List Link} {r : NodeId} :
      r ∈ followed ∨ g.size ≤ r → Collects g followed rest cs followed' →
      Collects g followed (.spliced r :: rest) cs followed'
  /-- A splice that is followed. -/
  | follow {followed followed₁ followed₂ cs ds : List NodeId} {rest : List Link} {r : NodeId} :
      r ∉ followed → r < g.size → Collects g (r :: followed) (g.links r) cs followed₁ →
      Collects g followed₁ rest ds followed₂ →
      Collects g followed (.spliced r :: rest) (cs ++ ds) followed₂

/-! ## One list of links after the other -/

namespace Collects

theorem append (h : Collects g followed links cs followed₁)
    (h' : Collects g followed₁ rest ds followed₂) :
    Collects g followed (links ++ rest) (cs ++ ds) followed₂ := by
  induction h with
  | done => exact h'
  | owned _ ih => exact .owned (ih h')
  | passed hr _ ih => exact .passed hr (ih h')
  | follow hr hlt hsource _ _ ih =>
      rw [List.append_assoc]
      exact .follow hr hlt hsource (ih h')

theorem exists_of_append (h : Collects g followed (links ++ rest) cs followed₂) :
    ∃ cs₁ cs₂ followed₁, cs = cs₁ ++ cs₂ ∧ Collects g followed links cs₁ followed₁ ∧
      Collects g followed₁ rest cs₂ followed₂ := by
  induction links generalizing followed cs with
  | nil => exact ⟨[], cs, followed, rfl, .done, h⟩
  | cons link links ih =>
      cases h with
      | owned hbelow =>
          obtain ⟨cs₁, cs₂, followed₁, rfl, hfirst, hsecond⟩ := ih hbelow
          exact ⟨_ :: cs₁, cs₂, followed₁, rfl, .owned hfirst, hsecond⟩
      | passed hr hbelow =>
          obtain ⟨cs₁, cs₂, followed₁, rfl, hfirst, hsecond⟩ := ih hbelow
          exact ⟨cs₁, cs₂, followed₁, rfl, .passed hr hfirst, hsecond⟩
      | @follow _ _ _ cs₀ _ _ _ hr hlt hsource hbelow =>
          obtain ⟨cs₁, cs₂, followed₁, rfl, hfirst, hsecond⟩ := ih hbelow
          exact ⟨cs₀ ++ cs₁, cs₂, followed₁, (List.append_assoc _ _ _).symm,
            .follow hr hlt hsource hfirst, hsecond⟩

/-- The walk comes to one end. -/
theorem unique (h : Collects g followed links cs followed₁)
    (h' : Collects g followed links ds followed₂) : cs = ds ∧ followed₁ = followed₂ := by
  induction h generalizing ds followed₂ with
  | done =>
      cases h'
      exact ⟨rfl, rfl⟩
  | owned _ ih =>
      cases h' with
      | owned hrest =>
          obtain ⟨rfl, rfl⟩ := ih hrest
          exact ⟨rfl, rfl⟩
  | passed hr _ ih =>
      cases h' with
      | passed _ hrest => exact ih hrest
      | follow hnew hlt => exact absurd hr (not_or.mpr ⟨hnew, Nat.not_le_of_lt hlt⟩)
  | follow hnew hlt _ _ ihsource ihrest =>
      cases h' with
      | passed hr => exact absurd hr (not_or.mpr ⟨hnew, Nat.not_le_of_lt hlt⟩)
      | follow _ _ hsource hrest =>
          obtain ⟨rfl, rfl⟩ := ihsource hsource
          obtain ⟨rfl, rfl⟩ := ihrest hrest
          exact ⟨rfl, rfl⟩

/-! ## What was followed -/

theorem subset (h : Collects g followed links cs followed') : followed ⊆ followed' := by
  induction h with
  | done => exact List.Subset.refl _
  | owned _ ih => exact ih
  | passed _ _ ih => exact ih
  | follow _ _ _ _ ihsource ihrest =>
      exact fun m hm => ihrest (ihsource (List.mem_cons_of_mem _ hm))

/-- **No node is followed twice.** -/
theorem nodup (h : Collects g followed links cs followed') (hnodup : followed.Nodup) :
    followed'.Nodup := by
  induction h with
  | done => exact hnodup
  | owned _ ih => exact ih hnodup
  | passed _ _ ih => exact ih hnodup
  | follow hnew _ _ _ ihsource ihrest =>
      exact ihrest (ihsource (List.nodup_cons.mpr ⟨hnew, hnodup⟩))

/-- All splices among the links were followed at the end. -/
theorem mem_of_spliced (h : Collects g followed links cs followed') (hr : .spliced r ∈ links)
    (hlt : r < g.size) : r ∈ followed' := by
  induction h with
  | done => exact absurd hr List.not_mem_nil
  | owned _ ih => exact ih (by simpa using hr)
  | @passed followed _ _ _ s hs hrest ih =>
      rcases List.mem_cons.mp hr with heq | hr
      · obtain rfl := Link.spliced.inj heq
        exact hrest.subset (hs.resolve_right (Nat.not_le_of_lt hlt))
      · exact ih hr
  | follow _ _ hsource hrest _ ihrest =>
      rcases List.mem_cons.mp hr with heq | hr
      · obtain rfl := Link.spliced.inj heq
        exact hrest.subset (hsource.subset List.mem_cons_self)
      · exact ihrest hr

/-- What is followed has its own splices followed. -/
theorem mem_of_followed (h : Collects g followed links cs followed') {m : NodeId}
    (hm : m ∈ followed') (hnew : m ∉ followed) (hr : .spliced r ∈ g.links m) (hlt : r < g.size) :
    r ∈ followed' := by
  induction h with
  | done => exact absurd hm hnew
  | owned _ ih => exact ih hm hnew
  | passed _ _ ih => exact ih hm hnew
  | @follow followed followed₁ _ _ _ _ s _ _ hsource hrest ihsource ihrest =>
      by_cases hmem : m ∈ followed₁
      · refine hrest.subset ?_
        by_cases hms : m = s
        · rw [hms] at hr
          exact hsource.mem_of_spliced hr hlt
        · exact ihsource hmem (by simp [hms, hnew])
      · exact ihrest hm hmem

/-- All that was followed is seen. -/
theorem sees (h : Collects g followed links cs followed')
    (hfollowed : ∀ m ∈ followed, g.Sees n m)
    (hlinks : ∀ r, .spliced r ∈ links → r < g.size → g.Sees n r) :
    ∀ m ∈ followed', g.Sees n m := by
  induction h with
  | done => exact hfollowed
  | owned _ ih => exact ih hfollowed fun r hr => hlinks r (List.mem_cons_of_mem _ hr)
  | passed _ _ ih => exact ih hfollowed fun r hr => hlinks r (List.mem_cons_of_mem _ hr)
  | @follow _ _ _ _ _ _ s _ hlt _ _ ihsource ihrest =>
      have hs : g.Sees n s := hlinks s List.mem_cons_self hlt
      refine ihrest (ihsource ?_ fun r hr hlt => .splice hs hr hlt)
        fun r hr => hlinks r (List.mem_cons_of_mem _ hr)
      exact List.forall_mem_cons.mpr ⟨hs, hfollowed⟩

/-- The children of a node are collected by following just what it sees. -/
theorem mem_followed_iff (h : Collects g [n] (g.links n) cs followed') {m : NodeId} :
    m ∈ followed' ↔ g.Sees n m := by
  constructor
  · refine fun hm => h.sees (fun m hm => ?_) (fun r hr hlt => .splice .self hr hlt) m hm
    rw [List.mem_singleton.mp hm]
    exact .self
  · intro hm
    induction hm with
    | self => exact h.subset List.mem_cons_self
    | @splice k r _ hr hlt ih =>
        by_cases hk : k = n
        · rw [hk] at hr
          exact h.mem_of_spliced hr hlt
        · exact h.mem_of_followed ih (by simpa using hk) hr hlt

end Collects

/-! ## The children of a node -/

/-- Links of which no splice has to be followed. -/
theorem collects_passed (hpassed : ∀ r, .spliced r ∈ passed → r < g.size → r ∈ followed) :
    g.Collects followed passed (Link.ownedBy passed) followed := by
  induction passed with
  | nil => exact .done
  | cons link passed ih =>
      have hrest := ih fun r hr => hpassed r (List.mem_cons_of_mem _ hr)
      cases link with
      | owned c => exact .owned hrest
      | spliced s =>
          refine .passed ?_ hrest
          rcases Nat.lt_or_ge s g.size with hlt | hge
          · exact Or.inl (hpassed s List.mem_cons_self hlt)
          · exact Or.inr hge

/-- **What the search finds is collected.** -/
theorem collects_of_resolve? (budget : Nat) : ∀ {followed : List NodeId} {links : List Link}
    {cs : List NodeId}, g.resolve? budget followed links = some cs →
    ∃ followed', g.Collects followed links cs followed' := by
  induction budget using Nat.strongRecOn with
  | ind budget ih =>
      intro followed links cs h
      obtain ⟨passed, hpassed, hcases⟩ := nextSplice_cases g followed links
      rcases hcases with ⟨rfl, hnext⟩ | ⟨r, rest, rfl, hnew, hlt, hnext⟩
      · rw [resolve?, hnext] at h
        cases h
        exact ⟨followed, collects_passed hpassed⟩
      · rw [resolve?, hnext] at h
        cases budget with
        | zero => exact absurd h (by simp)
        | succ fewer =>
            obtain ⟨ds, hds, rfl⟩ := Option.map_eq_some_iff.mp h
            obtain ⟨followed', hall⟩ := ih fewer (Nat.lt_succ_self fewer) hds
            -- the links of the source come first, and then those after the splice
            obtain ⟨cs₁, cs₂, followed₁, rfl, hsource, hrest⟩ := hall.exists_of_append
            exact ⟨followed', (collects_passed hpassed).append (.follow hnew hlt hsource hrest)⟩

/-- **The children of a node are collected from its links**, with itself as followed. -/
theorem collects_children (g : Graph) (n : NodeId) :
    ∃ followed, g.Collects [n] (g.links n) (g.children n) followed := by
  rcases Nat.lt_or_ge n g.size with hlt | hge
  · obtain ⟨cs, -, hresolve, -⟩ := resolve?_perm g.size (.init hlt)
    rw [children, hresolve]
    exact collects_of_resolve? g.size hresolve
  · rw [children_eq_nil_of_size_le hge, links_eq_nil_of_size_le hge]
    exact ⟨[n], .done⟩

theorem Collects.children_eq (h : g.Collects [n] (g.links n) cs followed) : g.children n = cs := by
  obtain ⟨followed', hchildren⟩ := g.collects_children n
  exact (hchildren.unique h).1

end FieldSelection.Graph

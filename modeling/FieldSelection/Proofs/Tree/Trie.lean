import FieldSelection.Proofs.Graph.Growth
import FieldSelection.Tree
import Mathlib.Data.List.Induction

/-!
# Trees made of paths

A tree that is made by adding paths is a trie: each node stands for the path that leads to
it, different nodes for different paths, and the paths that have a node are the prefixes of
those that were added. `IsTrie` says this of a graph and a map from its nodes to their paths,
and each way to add a child or a path keeps it.
-/

namespace FieldSelection

/-- A graph in which each node stands for the path that leads to it, its place. -/
structure IsTrie (g : Graph) (root : NodeId) (place : NodeId → Path) : Prop where
  /-- No children are spliced in. -/
  owned : ∀ n, ∃ cs, g.links n = Link.owning cs
  /-- The root is there. -/
  root_lt : root < g.size
  /-- No step leads to the root. -/
  place_root : place root = []
  /-- The label of a node is the last step to it. -/
  label : ∀ n, n < g.size → g.label n = (place n).getLast?
  /-- The children of a node are the nodes one step further. -/
  child : ∀ n c, c ∈ g.children n ↔ n < g.size ∧ c < g.size ∧ ∃ s, place c = place n ++ [s]
  /-- Different nodes have different places. -/
  inj : ∀ m n, m < g.size → n < g.size → place m = place n → m = n
  /-- On the way to a node there are nodes. -/
  closed : ∀ c, c < g.size → ∀ q s, place c = q ++ [s] → ∃ n, n < g.size ∧ place n = q

/-- Whether a path leads to a node. -/
def Graph.Reaches (g : Graph) (place : NodeId → Path) (q : Path) : Prop :=
  ∃ n, n < g.size ∧ place n = q

namespace IsTrie

variable {g : Graph} {root parent : NodeId} {place : NodeId → Path} {s : Segment}

theorem reaches_nil (h : IsTrie g root place) : g.Reaches place [] :=
  ⟨root, h.root_lt, h.place_root⟩

/-- Where there is a node, there is one at each place on the way. -/
theorem reaches_of_prefix (h : IsTrie g root place) {p q : Path} (hpq : p <+: q)
    (hq : g.Reaches place q) : g.Reaches place p := by
  obtain ⟨rest, rfl⟩ := hpq
  induction rest using List.reverseRecOn with
  | nil => simpa using hq
  | append_singleton rest s ih =>
      obtain ⟨n, hn, hplace⟩ := hq
      rw [← List.append_assoc] at hplace
      exact ih (h.closed n hn _ s hplace)

theorem empty : IsTrie Tree.empty.graph Tree.empty.root fun _ => [] := by
  have hlinks : ∀ n, Tree.empty.graph.links n = [] := by
    intro n
    show (Graph.empty.addRoot.1).links n = []
    rw [Graph.addRoot, Graph.links_addNode, Graph.links_eq_nil_of_size_le (Nat.zero_le n)]
  have hzero : ∀ n, n < Tree.empty.graph.size → n = 0 := fun n hn => Nat.lt_one_iff.mp hn
  constructor
  case owned => exact fun n => ⟨[], hlinks n⟩
  case root_lt => exact Nat.zero_lt_one
  case place_root => rfl
  case label =>
    intro n hn
    rw [hzero n hn]
    rfl
  case child =>
    intro n c
    have hnone : Tree.empty.graph.children n = [] := Graph.children_of_owning (hlinks n)
    simp [hnone]
  case inj => exact fun m n hm hn _ => (hzero m hm).trans (hzero n hn).symm
  case closed => exact fun c _ q s h => absurd h (by simp)

/-- The child of a node by a label is the node one step further. -/
theorem place_of_child? (h : IsTrie g root place) {c : NodeId} (hc : g.child? parent s = some c) :
    c < g.size ∧ place c = place parent ++ [s] := by
  have hlabel : g.label c = some s := by simpa using List.find?_some hc
  obtain ⟨_, hlt, s', hplace⟩ := (h.child parent c).mp (List.mem_of_find?_eq_some hc)
  rw [h.label c hlt, hplace, List.getLast?_concat] at hlabel
  rw [Option.some.inj hlabel] at hplace
  exact ⟨hlt, hplace⟩

/-- A label that no child has leads to a place without a node. -/
theorem place_ne_of_child?_eq_none (h : IsTrie g root place) (hp : parent < g.size)
    (hc : g.child? parent s = none) {c : NodeId} (hlt : c < g.size) :
    place c ≠ place parent ++ [s] := by
  intro hplace
  have hlabel : g.label c = some s := by rw [h.label c hlt, hplace, List.getLast?_concat]
  have hno := List.find?_eq_none.mp hc c ((h.child parent c).mpr ⟨hp, hlt, s, hplace⟩)
  exact hno (by simp [hlabel])

/-- The places after a node got one more child. -/
def placeWith (g : Graph) (place : NodeId → Path) (parent : NodeId) (s : Segment) :
    NodeId → Path :=
  fun n => if n = g.size then place parent ++ [s] else place n

theorem placeWith_size : placeWith g place parent s g.size = place parent ++ [s] := if_pos rfl

theorem placeWith_of_lt {n : NodeId} (h : n < g.size) :
    placeWith g place parent s n = place n := if_neg (Nat.ne_of_lt h)

/-- A node is an older one or the new one. -/
theorem lt_or_eq_of_lt_withChild {n : NodeId} (h : n < (g.withChild parent s).size) :
    n < g.size ∨ n = g.size := by
  rw [Graph.size_withChild] at h
  exact Nat.lt_succ_iff_lt_or_eq.mp h

theorem lt_withChild {n : NodeId} (h : n < g.size) : n < (g.withChild parent s).size := by
  rw [Graph.size_withChild]
  exact Nat.lt_succ_of_lt h

theorem mem_children_withChild (h : IsTrie g root place) (hp : parent < g.size) {n c : NodeId} :
    c ∈ (g.withChild parent s).children n ↔ c ∈ g.children n ∨ n = parent ∧ c = g.size := by
  obtain ⟨cs, hcs⟩ := h.owned n
  rw [Graph.children_of_owning hcs]
  by_cases hn : n = parent
  · subst hn
    have hlinks : (g.withChild n s).links n = Link.owning (cs ++ [g.size]) := by
      rw [Graph.links_withChild_self hp, hcs, Link.owning_append]
      rfl
    rw [Graph.children_of_owning hlinks, List.mem_append, List.mem_singleton]
    simp
  · have hlinks : (g.withChild parent s).links n = Link.owning cs := by
      rw [Graph.links_withChild_of_ne hn, hcs]
    rw [Graph.children_of_owning hlinks]
    simp [hn]

/-- Nothing lies beyond a place without a node. -/
theorem place_ne_beyond (h : IsTrie g root place) (hp : parent < g.size)
    (hc : g.child? parent s = none) {c : NodeId} (hlt : c < g.size) (s' : Segment) :
    place c ≠ place parent ++ [s] ++ [s'] := by
  intro hplace
  obtain ⟨n, hn, hq⟩ := h.closed c hlt _ s' hplace
  exact h.place_ne_of_child?_eq_none hp hc hn hq

/-- The new node is the only new child, and has none. -/
theorem child_withChild (h : IsTrie g root place) (hp : parent < g.size)
    (hc : g.child? parent s = none) (n c : NodeId) :
    c ∈ (g.withChild parent s).children n ↔
      n < (g.withChild parent s).size ∧ c < (g.withChild parent s).size ∧
        ∃ s', placeWith g place parent s c = placeWith g place parent s n ++ [s'] := by
  rw [h.mem_children_withChild hp]
  constructor
  · rintro (hmem | ⟨rfl, rfl⟩)
    · obtain ⟨hn, hc', s', hs'⟩ := (h.child n c).mp hmem
      refine ⟨lt_withChild hn, lt_withChild hc', s', ?_⟩
      rw [placeWith_of_lt hn, placeWith_of_lt hc', hs']
    · refine ⟨lt_withChild hp, by rw [Graph.size_withChild]; exact Nat.lt_succ_self _, s, ?_⟩
      rw [placeWith_size, placeWith_of_lt hp]
  · rintro ⟨hn, hc', s', hs'⟩
    rcases lt_or_eq_of_lt_withChild hn with hn | rfl
    · rw [placeWith_of_lt hn] at hs'
      rcases lt_or_eq_of_lt_withChild hc' with hc' | rfl
      · rw [placeWith_of_lt hc'] at hs'
        exact Or.inl ((h.child n c).mpr ⟨hn, hc', s', hs'⟩)
      · rw [placeWith_size] at hs'
        obtain ⟨hplace, _⟩ := List.append_inj' hs' rfl
        exact Or.inr ⟨(h.inj parent n hp hn hplace).symm, rfl⟩
    · -- nothing lies beyond the new node
      rw [placeWith_size] at hs'
      rcases lt_or_eq_of_lt_withChild hc' with hc' | rfl
      · rw [placeWith_of_lt hc'] at hs'
        exact absurd hs' (h.place_ne_beyond hp hc hc' s')
      · rw [placeWith_size] at hs'
        have hlength := congrArg List.length hs'
        simp at hlength

theorem inj_withChild (h : IsTrie g root place) (hp : parent < g.size)
    (hc : g.child? parent s = none) {m n : NodeId} (hm : m < (g.withChild parent s).size)
    (hn : n < (g.withChild parent s).size)
    (heq : placeWith g place parent s m = placeWith g place parent s n) : m = n := by
  have hfresh : ∀ n, n < g.size →
      placeWith g place parent s n ≠ placeWith g place parent s g.size := by
    intro n hn
    rw [placeWith_of_lt hn, placeWith_size]
    exact h.place_ne_of_child?_eq_none hp hc hn
  rcases lt_or_eq_of_lt_withChild hm with hm | rfl <;>
    rcases lt_or_eq_of_lt_withChild hn with hn | rfl
  · rw [placeWith_of_lt hm, placeWith_of_lt hn] at heq
    exact h.inj m n hm hn heq
  · exact absurd heq (hfresh m hm)
  · exact absurd heq.symm (hfresh n hn)
  · rfl

/-- A new child gets the place one step further. -/
theorem withChild (h : IsTrie g root place) (hp : parent < g.size)
    (hc : g.child? parent s = none) :
    IsTrie (g.withChild parent s) root (placeWith g place parent s) where
  owned := by
    intro n
    obtain ⟨cs, hcs⟩ := h.owned n
    by_cases hn : n = parent
    · refine ⟨cs ++ [g.size], ?_⟩
      subst hn
      rw [Graph.links_withChild_self hp, hcs, Link.owning_append]
      rfl
    · exact ⟨cs, by rw [Graph.links_withChild_of_ne hn, hcs]⟩
  root_lt := lt_withChild h.root_lt
  place_root := by rw [placeWith_of_lt h.root_lt, h.place_root]
  label := by
    intro n hn
    rcases lt_or_eq_of_lt_withChild hn with hlt | rfl
    · rw [Graph.label_withChild_of_lt hlt, placeWith_of_lt hlt, h.label n hlt]
    · rw [Graph.label_withChild_size, placeWith_size, List.getLast?_concat]
  child := h.child_withChild hp hc
  inj := fun _ _ hm hn heq => h.inj_withChild hp hc hm hn heq
  closed := by
    have hold : ∀ q, (∃ n, n < g.size ∧ place n = q) →
        ∃ n, n < (g.withChild parent s).size ∧ placeWith g place parent s n = q := by
      rintro q ⟨n, hn, hq⟩
      exact ⟨n, lt_withChild hn, by rw [placeWith_of_lt hn, hq]⟩
    intro c hclt q s' hplace
    rcases lt_or_eq_of_lt_withChild hclt with hlt | rfl
    · rw [placeWith_of_lt hlt] at hplace
      exact hold q (h.closed c hlt q s' hplace)
    · rw [placeWith_size] at hplace
      obtain ⟨hq, _⟩ := List.append_inj' hplace rfl
      exact hold q ⟨parent, hp, hq⟩

theorem reaches_withChild {q : Path} :
    (g.withChild parent s).Reaches (placeWith g place parent s) q ↔
      g.Reaches place q ∨ q = place parent ++ [s] := by
  constructor
  · rintro ⟨n, hn, hq⟩
    rcases lt_or_eq_of_lt_withChild hn with hlt | rfl
    · exact Or.inl ⟨n, hlt, by rw [← hq, placeWith_of_lt hlt]⟩
    · exact Or.inr (by rw [← hq, placeWith_size])
  · rintro (⟨n, hn, hq⟩ | rfl)
    · exact ⟨n, lt_withChild hn, by rw [placeWith_of_lt hn, hq]⟩
    · refine ⟨g.size, ?_, placeWith_size⟩
      rw [Graph.size_withChild]
      exact Nat.lt_succ_self _

/-- What it takes to have a child: the trie has a node one step further, and no others that
were not there. -/
theorem ensureChild (h : IsTrie g root place) (hp : parent < g.size) (s : Segment) :
    ∃ place', IsTrie (g.ensureChild parent s).1 root place' ∧
      (g.ensureChild parent s).2 < (g.ensureChild parent s).1.size ∧
      place' (g.ensureChild parent s).2 = place parent ++ [s] ∧
      ∀ q, (g.ensureChild parent s).1.Reaches place' q ↔
        g.Reaches place q ∨ q = place parent ++ [s] := by
  cases hc : g.child? parent s with
  | some c =>
      obtain ⟨hlt, hplace⟩ := h.place_of_child? hc
      rw [Graph.ensureChild_of_some hc]
      refine ⟨place, h, hlt, hplace, fun q => ?_⟩
      constructor
      · exact Or.inl
      · rintro (hq | rfl)
        · exact hq
        · exact ⟨c, hlt, hplace⟩
  | none =>
      rw [Graph.ensureChild_of_none hc]
      refine ⟨placeWith g place parent s, h.withChild hp hc, ?_, placeWith_size, fun q => ?_⟩
      · show g.size < (g.withChild parent s).size
        rw [Graph.size_withChild]
        exact Nat.lt_succ_self _
      · exact reaches_withChild

/-- A branch adds the places on the way along its path. -/
theorem ensureBranch (h : IsTrie g root place) (hp : parent < g.size) (path : Path) :
    ∃ place', IsTrie (g.ensureBranch parent path).1 root place' ∧
      ∀ q, (g.ensureBranch parent path).1.Reaches place' q ↔
        g.Reaches place q ∨ ∃ r, r ≠ [] ∧ r <+: path ∧ q = place parent ++ r := by
  induction path generalizing g parent place with
  | nil =>
      refine ⟨place, h, fun q => ⟨Or.inl, ?_⟩⟩
      rintro (hq | ⟨r, hne, hr, _⟩)
      · exact hq
      · exact absurd (List.prefix_nil.mp hr) hne
  | cons s rest ih =>
      -- the rest of the path goes on from the child
      obtain ⟨place₁, h₁, hlt, hplace, hreach₁⟩ := h.ensureChild hp s
      obtain ⟨place₂, h₂, hreach₂⟩ := ih h₁ hlt
      refine ⟨place₂, h₂, fun q => (hreach₂ q).trans ?_⟩
      rw [hreach₁, hplace]
      constructor
      · rintro ((hq | rfl) | ⟨r, _, hr, rfl⟩)
        · exact Or.inl hq
        · exact Or.inr ⟨[s], by simp, by simp, rfl⟩
        · exact Or.inr ⟨s :: r, by simp, List.cons_prefix_cons.mpr ⟨rfl, hr⟩, by simp⟩
      · rintro (hq | ⟨r, hne, hr, rfl⟩)
        · exact Or.inl (Or.inl hq)
        · obtain ⟨s', r', rfl⟩ := List.exists_cons_of_ne_nil hne
          obtain ⟨rfl, hr'⟩ := List.cons_prefix_cons.mp hr
          by_cases hr0 : r' = []
          · exact Or.inl (Or.inr (by rw [hr0]))
          · exact Or.inr ⟨r', hr0, hr', by simp⟩

/-- Adding a path adds its prefixes. -/
theorem addPath {t : Tree} (h : IsTrie t.graph t.root place) (path : Path) :
    ∃ place', IsTrie (t.addPath path).graph (t.addPath path).root place' ∧
      ∀ q, (t.addPath path).graph.Reaches place' q ↔ t.graph.Reaches place q ∨ q <+: path := by
  obtain ⟨place', h', hreach⟩ := h.ensureBranch h.root_lt path
  refine ⟨place', h', fun q => (hreach q).trans ?_⟩
  rw [h.place_root]
  constructor
  · rintro (hq | ⟨r, _, hr, rfl⟩)
    · exact Or.inl hq
    · exact Or.inr hr
  · rintro (hq | hq)
    · exact Or.inl hq
    · by_cases hne : q = []
      · rw [hne]
        exact Or.inl h.reaches_nil
      · exact Or.inr ⟨q, hne, hq, rfl⟩

theorem foldl_addPath {t : Tree} (h : IsTrie t.graph t.root place) (paths : List Path) :
    ∃ place', IsTrie (paths.foldl Tree.addPath t).graph (paths.foldl Tree.addPath t).root place' ∧
      ∀ q, (paths.foldl Tree.addPath t).graph.Reaches place' q ↔
        t.graph.Reaches place q ∨ ∃ p ∈ paths, q <+: p := by
  induction paths generalizing t place with
  | nil => exact ⟨place, h, fun q => by simp⟩
  | cons path rest ih =>
      -- places may be given anew by each path, so what is reached is carried along
      obtain ⟨place₁, h₁, hreach₁⟩ := h.addPath path
      obtain ⟨place₂, h₂, hreach₂⟩ := ih h₁
      refine ⟨place₂, h₂, fun q => (hreach₂ q).trans ?_⟩
      rw [hreach₁]
      simp [or_assoc]

/-- **The tree of several paths is a trie of their prefixes.** -/
theorem ofPaths (paths : List Path) :
    ∃ place, IsTrie (Tree.ofPaths paths).graph (Tree.ofPaths paths).root place ∧
      ∀ q, (Tree.ofPaths paths).graph.Reaches place q ↔ q = [] ∨ ∃ p ∈ paths, q <+: p := by
  obtain ⟨place, h, hreach⟩ := foldl_addPath IsTrie.empty paths
  refine ⟨place, h, fun q => (hreach q).trans (or_congr_left ?_)⟩
  constructor
  · rintro ⟨_, _, hq⟩
    exact hq.symm
  · rintro rfl
    exact IsTrie.empty.reaches_nil

end IsTrie

end FieldSelection

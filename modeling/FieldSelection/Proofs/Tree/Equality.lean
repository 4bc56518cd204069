import FieldSelection.Proofs.Graph.Siblings
import FieldSelection.Proofs.Tree.Pairing
import FieldSelection.Proofs.Tree.Trie

/-!
# Trees are the same if they have the same paths

The comparison takes two nodes to be the same as soon as it meets them, and never takes that
back. What it has opened at the end is closed: the labels of each pair are the same, and the
children of each pair were opened as well. So whatever can be walked from the one root can be
walked from the other, one pair at a time.

Siblings have to have different labels for that. Then a child is known by its label, a node that
has as many children as its partner and a counterpart for each of them is left with none over,
and nodes with the same paths below them have children with the same paths below them. So the
comparison of two trees that have the same paths goes on from such nodes to such nodes, however
the trees are shared, unrolled or numbered.
-/

namespace FieldSelection

namespace Graph

/-- Whether a way down from a node has these labels. -/
def HasPath (g : Graph) : NodeId → Path → Prop
  | _, [] => True
  | n, s :: rest => ∃ c ∈ g.children n, g.label c = some s ∧ g.HasPath c rest

/-- Whether a node is another one or lies somewhere below it. -/
inductive Holds (g : Graph) (n : NodeId) : NodeId → Prop where
  /-- It is the node itself. -/
  | self : Holds g n n
  /-- It is a child of a node that is held. -/
  | child {m c : NodeId} : Holds g n m → c ∈ g.children m → Holds g n c

/-- Whether the nodes below a node can be told by the labels on the way to them. -/
structure IsUnambiguous (g : Graph) (n : NodeId) : Prop where
  /-- Children have labels. -/
  label : ∀ {m c}, g.Holds n m → c ∈ g.children m → g.label c ≠ none
  /-- Siblings have different ones. -/
  siblings : ∀ {m}, g.Holds n m → ((g.children m).map g.label).Nodup

variable {g h : Graph} {a b c n m : NodeId} {s : Segment} {pairs : List (NodeId × NodeId)}

theorem Holds.trans (hn : g.Holds n m) (hm : g.Holds m c) : g.Holds n c := by
  induction hm with
  | self => exact hn
  | child _ hc ih => exact ih.child hc

namespace IsUnambiguous

theorem below (hn : g.IsUnambiguous n) (hm : g.Holds n m) : g.IsUnambiguous m :=
  ⟨fun hk => hn.label (hm.trans hk), fun hk => hn.siblings (hm.trans hk)⟩

theorem child (hn : g.IsUnambiguous n) (hc : c ∈ g.children n) : g.IsUnambiguous c :=
  hn.below (Holds.self.child hc)

theorem exists_label (hn : g.IsUnambiguous n) (hc : c ∈ g.children n) :
    ∃ s, g.label c = some s :=
  Option.ne_none_iff_exists'.mp (hn.label .self hc)

/-- A path goes on from the one child that its first segment leads to. -/
theorem hasPath_cons_iff (hn : g.IsUnambiguous n) (hc : c ∈ g.children n)
    (hs : g.label c = some s) (rest : Path) :
    g.HasPath n (s :: rest) ↔ g.HasPath c rest := by
  constructor
  · rintro ⟨c', hc', hs', hrest⟩
    have heq : c' = c := List.inj_on_of_nodup_map (hn.siblings .self) hc' hc (hs'.trans hs.symm)
    rwa [heq] at hrest
  · intro hrest
    exact ⟨c, hc, hs, hrest⟩

theorem mem_labels_iff (hn : g.IsUnambiguous n) (label : Option Segment) :
    label ∈ (g.children n).map g.label ↔ ∃ s, label = some s ∧ g.HasPath n [s] := by
  rw [List.mem_map]
  constructor
  · rintro ⟨c, hc, rfl⟩
    obtain ⟨s, hs⟩ := hn.exists_label hc
    exact ⟨s, hs, c, hc, hs, trivial⟩
  · rintro ⟨s, rfl, c, hc, hs, -⟩
    exact ⟨c, hc, hs⟩

end IsUnambiguous

/-! ## Pairs of children -/

theorem exists_mem_of_mapM {α β : Type} {f : α → Option β} {xs : List α} {ys : List β}
    (hmap : xs.mapM f = some ys) {x : α} (hx : x ∈ xs) : ∃ y ∈ ys, f x = some y := by
  induction xs generalizing ys with
  | nil => exact absurd hx List.not_mem_nil
  | cons x₀ xs ih =>
      rw [List.mapM_cons, Option.bind_eq_bind, Option.bind_eq_some_iff] at hmap
      obtain ⟨y₀, hy₀, hmap⟩ := hmap
      rw [Option.bind_eq_bind, Option.bind_eq_some_iff] at hmap
      obtain ⟨ys₀, hys₀, hys⟩ := hmap
      cases hys
      rcases List.mem_cons.mp hx with rfl | hx
      · exact ⟨y₀, List.mem_cons_self, hy₀⟩
      · obtain ⟨y, hy, hxy⟩ := ih hys₀ hx
        exact ⟨y, List.mem_cons_of_mem _ hy, hxy⟩

theorem exists_mapM_eq_some {α β : Type} {f : α → Option β} {P : β → Prop} {xs : List α}
    (hf : ∀ x ∈ xs, ∃ y, f x = some y ∧ P y) : ∃ ys, xs.mapM f = some ys ∧ ∀ y ∈ ys, P y := by
  induction xs with
  | nil => exact ⟨[], rfl, fun y hy => absurd hy List.not_mem_nil⟩
  | cons x xs ih =>
      obtain ⟨y, hy, hPy⟩ := hf x List.mem_cons_self
      obtain ⟨ys, hys, hPys⟩ := ih fun x' hx' => hf x' (List.mem_cons_of_mem _ hx')
      refine ⟨y :: ys, ?_, List.forall_mem_cons.mpr ⟨hPy, hPys⟩⟩
      rw [List.mapM_cons, hy, hys]
      rfl

/-- Each child of the first node is paired with a child of the second that has its label. -/
theorem exists_pair (hpairs : pairChildren? g h a b = some pairs) (hc : c ∈ g.children a) :
    ∃ k ∈ h.children b, h.label k = g.label c ∧ (c, k) ∈ pairs := by
  rw [pairChildren?] at hpairs
  split at hpairs
  · obtain ⟨pair, hpair, hfind⟩ := exists_mem_of_mapM hpairs hc
    obtain ⟨k, hk, rfl⟩ := Option.map_eq_some_iff.mp hfind
    exact ⟨k, List.mem_of_find?_eq_some hk, by simpa using List.find?_some hk, hpair⟩
  · exact absurd hpairs (by simp)

/-- As there are as many children on both sides, none of the second node is left over. -/
theorem perm_labels (hpairs : pairChildren? g h a b = some pairs)
    (hnodup : ((g.children a).map g.label).Nodup) :
    ((g.children a).map g.label).Perm ((h.children b).map h.label) := by
  have hsub : (g.children a).map g.label ⊆ (h.children b).map h.label := by
    intro label hlabel
    obtain ⟨c, hc, rfl⟩ := List.mem_map.mp hlabel
    obtain ⟨k, hk, heq, -⟩ := exists_pair hpairs hc
    exact List.mem_map.mpr ⟨k, hk, heq⟩
  refine (List.subperm_of_subset hnodup hsub).perm_of_length_le ?_
  rw [List.length_map, List.length_map]
  rw [pairChildren?] at hpairs
  split at hpairs
  · rename_i hlength
    exact Nat.le_of_eq (by simpa using Eq.symm (by simpa using hlength))
  · exact absurd hpairs (by simp)

/-- Each child of the second node is paired with one of the first. -/
theorem exists_pair_of_mem (hpairs : pairChildren? g h a b = some pairs)
    (ha : g.IsUnambiguous a) (hb : h.IsUnambiguous b) {k : NodeId} (hk : k ∈ h.children b) :
    ∃ c ∈ g.children a, h.label k = g.label c ∧ (c, k) ∈ pairs := by
  have hlabel := (perm_labels hpairs (ha.siblings .self)).mem_iff.mpr (List.mem_map_of_mem hk)
  obtain ⟨c, hc, hck⟩ := List.mem_map.mp hlabel
  obtain ⟨k', hk', hlabel', hpair⟩ := exists_pair hpairs hc
  have heq : k' = k := List.inj_on_of_nodup_map (hb.siblings .self) hk' hk (hlabel'.trans hck)
  rw [heq] at hpair
  exact ⟨c, hc, hck.symm, hpair⟩

/-! ## What a comparison that succeeds has found -/

/-- Whether the nodes of each pair have the same label and their children are paired in the list
again, or wait to be. -/
def IsClosed (g h : Graph) (closed pending : List (NodeId × NodeId)) : Prop :=
  ∀ a b, (a, b) ∈ closed → g.label a = h.label b ∧
    ∃ pairs, pairChildren? g h a b = some pairs ∧ pairs ⊆ closed ++ pending

namespace IsClosed

variable {opened pending rest : List (NodeId × NodeId)}

theorem mono {pending' : List (NodeId × NodeId)} (hclosed : IsClosed g h opened pending)
    (hsub : pending ⊆ opened ++ pending') : IsClosed g h opened pending' := by
  intro a b hab
  obtain ⟨hlabel, pairs, hpairs, hin⟩ := hclosed a b hab
  exact ⟨hlabel, pairs, hpairs,
    List.Subset.trans hin (List.append_subset.mpr ⟨List.subset_append_left _ _, hsub⟩)⟩

/-- What is opened has its children among those that wait. -/
theorem push (hclosed : IsClosed g h opened ((a, b) :: rest)) (hlabel : g.label a = h.label b)
    (hpairs : pairChildren? g h a b = some pairs) :
    IsClosed g h ((a, b) :: opened) (pairs ++ rest) := by
  intro x y hxy
  rcases List.mem_cons.mp hxy with heq | hxy
  · cases heq
    exact ⟨hlabel, pairs, hpairs,
      fun pair hpair => List.mem_append_right _ (List.mem_append_left _ hpair)⟩
  · obtain ⟨hlabel', pairs', hpairs', hin⟩ := hclosed x y hxy
    refine ⟨hlabel', pairs', hpairs', fun pair hpair => ?_⟩
    have hmem := hin hpair
    simp only [List.mem_append, List.mem_cons] at hmem ⊢
    tauto

end IsClosed

theorem pending_subset (opened pending : List (NodeId × NodeId)) :
    pending ⊆ opened ++ pending.dropWhile (opened.contains ·) := by
  obtain ⟨passed, hpending, hpassed⟩ := exists_passed opened pending
  intro pair hpair
  rw [hpending] at hpair
  exact List.mem_append.mpr ((List.mem_append.mp hpair).imp_left (hpassed pair))

/-- A comparison that succeeds has nothing to open any more, or opens a pair and goes on. -/
theorem sameBelow?_eq_true {budget : Nat} {opened pending : List (NodeId × NodeId)}
    (hsame : sameBelow? g h budget opened pending = some true) :
    pending.dropWhile (opened.contains ·) = [] ∨
      ∃ a b rest pairs fewer, budget = fewer + 1 ∧
        pending.dropWhile (opened.contains ·) = (a, b) :: rest ∧ g.label a = h.label b ∧
        pairChildren? g h a b = some pairs ∧
        sameBelow? g h fewer ((a, b) :: opened) (pairs ++ rest) = some true := by
  unfold sameBelow? at hsame
  split at hsame
  · exact Or.inl ‹_›
  · rename_i a b rest hrest
    split at hsame
    · rename_i hlabel
      split at hsame
      · exact absurd hsame (by simp)
      · split at hsame
        · exact absurd hsame (by simp)
        · rename_i fewer _ pairs hpairs
          exact Or.inr ⟨a, b, rest, pairs, fewer, rfl, hrest, by simpa using hlabel, hpairs, hsame⟩
    · exact absurd hsame (by simp)

/-- **What was taken to be the same is never taken back, and rightly so**: at the end, nothing
waits any more. -/
theorem exists_isClosed (budget : Nat) : ∀ {opened pending : List (NodeId × NodeId)},
    sameBelow? g h budget opened pending = some true → IsClosed g h opened pending →
    ∃ closed, opened ++ pending ⊆ closed ∧ IsClosed g h closed [] := by
  induction budget using Nat.strongRecOn with
  | ind budget ih =>
      intro opened pending hsame hclosed
      -- what was opened before is passed over
      have hpassed := pending_subset opened pending
      have hclosed := hclosed.mono hpassed
      have hsub : opened ++ pending ⊆ opened ++ pending.dropWhile (opened.contains ·) :=
        List.append_subset.mpr ⟨List.subset_append_left _ _, hpassed⟩
      rcases sameBelow?_eq_true hsame with
        hnone | ⟨a, b, rest, pairs, fewer, rfl, hrest, hlabel, hpairs, hsame⟩
      · rw [hnone] at hclosed hsub
        exact ⟨opened, by simpa using hsub, hclosed⟩
      · rw [hrest] at hclosed hsub
        obtain ⟨closed, hin, hall⟩ := ih fewer (Nat.lt_succ_self _) hsame
          (hclosed.push hlabel hpairs)
        refine ⟨closed, fun pair hpair => hin ?_, hall⟩
        have hpair := hsub hpair
        simp only [List.mem_append, List.mem_cons] at hpair ⊢
        tauto

/-! ## Paths of paired nodes -/

/-- Nodes that are paired in a closed list have the same paths below them. -/
theorem IsClosed.hasPath_iff {closed : List (NodeId × NodeId)} (hclosed : IsClosed g h closed [])
    (path : Path) : ∀ {a b : NodeId}, (a, b) ∈ closed → g.IsUnambiguous a → h.IsUnambiguous b →
      (g.HasPath a path ↔ h.HasPath b path) := by
  induction path with
  | nil => exact fun _ _ _ => Iff.rfl
  | cons s rest ih =>
      intro a b hab ha hb
      obtain ⟨-, pairs, hpairs, hin⟩ := hclosed a b hab
      rw [List.append_nil] at hin
      constructor
      · rintro ⟨c, hc, hs, hrest⟩
        obtain ⟨k, hk, hlabel, hpair⟩ := exists_pair hpairs hc
        exact ⟨k, hk, hlabel.trans hs, (ih (hin hpair) (ha.child hc) (hb.child hk)).mp hrest⟩
      · rintro ⟨k, hk, hs, hrest⟩
        obtain ⟨c, hc, hlabel, hpair⟩ := exists_pair_of_mem hpairs ha hb hk
        exact ⟨c, hc, hlabel.symm.trans hs,
          (ih (hin hpair) (ha.child hc) (hb.child hk)).mpr hrest⟩

/-- Whether two nodes have the same label and the same paths below them, and these can be told
apart. -/
structure Alike (g h : Graph) (a b : NodeId) : Prop where
  /-- Both nodes are there. -/
  lt : a < g.size ∧ b < h.size
  /-- They have the same label. -/
  label : g.label a = h.label b
  /-- What is below the first is told by labels. -/
  left : g.IsUnambiguous a
  /-- What is below the second is, too. -/
  right : h.IsUnambiguous b
  /-- The same ways lead down. -/
  path : ∀ path, g.HasPath a path ↔ h.HasPath b path

namespace Alike

/-- Children with one label go on alike. -/
theorem child (hab : Alike g h a b) {k : NodeId} (hc : c ∈ g.children a) (hk : k ∈ h.children b)
    (hlabel : h.label k = g.label c) : Alike g h c k := by
  obtain ⟨s, hs⟩ := hab.left.exists_label hc
  have hs' : h.label k = some s := hlabel.trans hs
  refine ⟨⟨lt_size_of_label hs, lt_size_of_label hs'⟩, hlabel.symm, hab.left.child hc,
    hab.right.child hk, fun path => ?_⟩
  rw [← hab.left.hasPath_cons_iff hc hs, ← hab.right.hasPath_cons_iff hk hs']
  exact hab.path (s :: path)

theorem length_children (hab : Alike g h a b) :
    (g.children a).length = (h.children b).length := by
  have hperm : ((g.children a).map g.label).Perm ((h.children b).map h.label) := by
    rw [List.perm_ext_iff_of_nodup (hab.left.siblings .self) (hab.right.siblings .self)]
    intro label
    rw [hab.left.mem_labels_iff, hab.right.mem_labels_iff]
    exact exists_congr fun s => and_congr_right fun _ => hab.path [s]
  simpa using hperm.length_eq

/-- Each child of the first is found again, and goes on alike. -/
theorem find?_child (hab : Alike g h a b) (hc : c ∈ g.children a) :
    ∃ k, (h.children b).find? (fun k => h.label k == g.label c) = some k ∧ Alike g h c k := by
  obtain ⟨s, hs⟩ := hab.left.exists_label hc
  obtain ⟨k, hk, hk', -⟩ := (hab.path [s]).mp ⟨c, hc, hs, trivial⟩
  have hlabel : h.label k = g.label c := hk'.trans hs.symm
  exact ⟨k, find?_label_eq (hab.right.siblings .self) hk hlabel.symm, hab.child hc hk hlabel⟩

/-- **Nodes that are alike are matched** by the comparison, and so are their children. -/
theorem isMatching : IsMatching g h (Alike g h) where
  lt := Alike.lt
  label := Alike.label
  children := by
    intro a b hab
    rw [pairChildren?, if_pos (by simpa using hab.length_children)]
    refine exists_mapM_eq_some fun c hc => ?_
    obtain ⟨k, hfind, hck⟩ := hab.find?_child hc
    exact ⟨(c, k), by rw [hfind]; rfl, hck⟩

end Alike

end Graph

namespace Tree

/-- Whether these labels can be walked from the root. -/
def HasPath (t : Tree) (path : Path) : Prop := t.graph.HasPath t.root path

/-- Whether a tree starts at a root and no node of it has two children with the same label. -/
structure IsUnambiguous (t : Tree) : Prop where
  /-- The root is there. -/
  root_lt : t.root < t.graph.size
  /-- It has no label. -/
  root_label : t.graph.label t.root = none
  /-- Below it, nodes can be told by labels. -/
  below : t.graph.IsUnambiguous t.root

variable {t u : Tree}

/-- **Two trees are the same exactly if they have the same paths.** -/
theorem same_iff_hasPath (ht : t.IsUnambiguous) (hu : u.IsUnambiguous) :
    t.same u = true ↔ ∀ path, t.HasPath path ↔ u.HasPath path := by
  rw [same]
  constructor
  · intro hsame path
    have hsome : Graph.sameBelow? t.graph u.graph (t.size * u.size) [] [(t.root, u.root)] =
        some true := by
      simpa [Option.getD_eq_iff] using hsame
    obtain ⟨closed, hin, hclosed⟩ := Graph.exists_isClosed _ hsome
      fun _ _ hab => absurd hab List.not_mem_nil
    exact hclosed.hasPath_iff path (hin (by simp)) ht.below hu.below
  · intro hpath
    have halike : Graph.Alike t.graph u.graph t.root u.root :=
      ⟨⟨ht.root_lt, hu.root_lt⟩, ht.root_label.trans hu.root_label.symm, ht.below, hu.below, hpath⟩
    rw [Graph.Alike.isMatching.sameBelow? (t.size * u.size) (comparing_nil t u)
      (by simpa using halike)]
    rfl

end Tree

/-! ## Graphs that are built -/

namespace Graph

variable {g : Graph} {n m : NodeId} {s : Segment}

/-- Whether every child has a label. -/
def IsLabelled (g : Graph) : Prop := ∀ n k, .owned k ∈ g.links n → g.label k ≠ none

theorem WellOwned.isLabelled (h : g.WellOwned) : g.IsLabelled := fun _ _ => h.label

theorem IsLabelled.lt_size (h : g.IsLabelled) {k : NodeId} (hk : .owned k ∈ g.links n) :
    k < g.size := by
  obtain ⟨s, hs⟩ := Option.ne_none_iff_exists'.mp (h n k hk)
  exact lt_size_of_label hs

/-- Where children have labels and siblings different ones, all nodes can be told by labels. -/
theorem IsLabelled.isUnambiguous (h : g.IsLabelled)
    (hsiblings : ∀ m, g.Holds n m → ((g.children m).map g.label).Nodup) : g.IsUnambiguous n := by
  refine ⟨fun _ hc => ?_, fun {m} => hsiblings m⟩
  obtain ⟨o, _, ho⟩ := mem_children_iff_owned.mp hc
  exact h o _ ho

/-- Links of a node are those that it had, or those that it was given. -/
theorem mem_links_setLinks {links : List Link} {link : Link}
    (h : link ∈ (g.setLinks n links).links m) : link ∈ g.links m ∨ link ∈ links := by
  rcases links_setLinks_cases g n links m with hsame | ⟨_, hset⟩
  · rw [hsame] at h
    exact Or.inl h
  · rw [hset] at h
    exact Or.inr h

namespace IsLabelled

variable {path : Path}

/-- A new node with a label can be linked to, from whichever node. -/
theorem link (h : g.IsLabelled) {links : List Link}
    (hlinks : ∀ k, .owned k ∈ links → k = g.size ∨ .owned k ∈ g.links n) :
    ((g.addNode (some s)).1.setLinks n links).IsLabelled := by
  intro m k hk
  rw [label_setLinks]
  have hcases : k = g.size ∨ g.label k ≠ none := by
    rcases mem_links_setLinks hk with hold | hgiven
    · rw [links_addNode] at hold
      exact Or.inr (h m k hold)
    · exact (hlinks k hgiven).imp_right (h n k)
  rcases hcases with rfl | hlabel
  · rw [label_addNode_size]
    exact Option.some_ne_none s
  · obtain ⟨s', hs'⟩ := Option.ne_none_iff_exists'.mp hlabel
    rw [label_addNode_of_lt _ (lt_size_of_label hs')]
    exact hlabel

theorem ensureChild (h : g.IsLabelled) (n : NodeId) (s : Segment) :
    (g.ensureChild n s).1.IsLabelled := by
  cases hchild : g.child? n s with
  | some c =>
      rw [ensureChild_of_some hchild]
      exact h
  | none =>
      rw [ensureChild_of_none hchild]
      refine h.link fun k hk => ?_
      rw [links_addNode, List.mem_append, List.mem_singleton] at hk
      exact hk.symm.imp_left Link.owned.inj

theorem ensureBranch (h : g.IsLabelled) (n : NodeId) :
    (g.ensureBranch n path).1.IsLabelled := by
  induction path generalizing g n with
  | nil => exact h
  | cons s rest ih => exact ih (h.ensureChild n s) _

theorem setCatchAll (h : g.IsLabelled) (n : NodeId) : (g.setCatchAll n).1.IsLabelled :=
  h.link fun _ hk => Or.inl (Link.owned.inj (List.mem_singleton.mp hk))

theorem addSplice (h : g.IsLabelled) (n source : NodeId) :
    (g.addLink n (.spliced source)).IsLabelled := by
  intro m k hk
  rw [label_addLink]
  rcases mem_links_setLinks hk with hold | hgiven
  · exact h m k hold
  · rw [List.mem_append, List.mem_singleton] at hgiven
    exact h n k (hgiven.resolve_right (by simp))

theorem apply (h : g.IsLabelled) (operation : Operation) : (g.apply operation).IsLabelled := by
  cases operation with
  | addRoot =>
      intro n k hk
      have hlinks : (g.apply .addRoot).links n = g.links n := links_addNode none n
      rw [hlinks] at hk
      have hlabel : (g.apply .addRoot).label k = g.label k :=
        label_addNode_of_lt none (h.lt_size hk)
      rw [hlabel]
      exact h n k hk
  | child n s => exact h.ensureChild n s
  | branch n path => exact h.ensureBranch n
  | catchAll n => exact h.setCatchAll n
  | merge n source =>
      rcases g.apply_merge_cases n source with hsame | ⟨_, _, hadd⟩
      · rw [hsame]
        exact h
      · rw [hadd]
        exact h.addSplice n source

theorem foldl_apply (operations : List Operation) (h : g.IsLabelled) :
    (operations.foldl Graph.apply g).IsLabelled := by
  induction operations generalizing g with
  | nil => exact h
  | cons operation rest ih => exact ih (h.apply operation)

/-- Whatever is built, children have labels. -/
theorem build (operations : List Operation) : (Graph.build operations).IsLabelled :=
  IsTidy.empty.owned.isLabelled.foldl_apply operations

end IsLabelled

end Graph

/-- **In whatever is built, nodes can be told by labels** as soon as siblings can. -/
theorem Tree.isUnambiguous_of_build {t : Tree} {operations : List Graph.Operation}
    (hbuild : t.graph = Graph.build operations) (hlt : t.root < t.graph.size)
    (hroot : t.graph.label t.root = none)
    (hsiblings : ∀ m, t.graph.Holds t.root m → ((t.graph.children m).map t.graph.label).Nodup) :
    t.IsUnambiguous := by
  have hlabelled : t.graph.IsLabelled := hbuild ▸ Graph.IsLabelled.build operations
  exact ⟨hlt, hroot, hlabelled.isUnambiguous hsiblings⟩

/-! ## Trees of paths -/

/-- The ways down from a node of a trie are those to the places beyond its own. -/
theorem IsTrie.hasPath_iff {g : Graph} {root : NodeId} {place : NodeId → Path}
    (h : IsTrie g root place) (path : Path) : ∀ {n : NodeId}, n < g.size →
      (g.HasPath n path ↔ g.Reaches place (place n ++ path)) := by
  induction path with
  | nil =>
      intro n hn
      exact iff_of_true trivial ⟨n, hn, (List.append_nil _).symm⟩
  | cons s rest ih =>
      intro n hn
      constructor
      · rintro ⟨c, hc, hs, hrest⟩
        obtain ⟨-, hlt, s', hplace⟩ := (h.child n c).mp hc
        rw [h.label c hlt, hplace, List.getLast?_concat] at hs
        cases hs
        have hreach := (ih hlt).mp hrest
        rw [hplace, List.append_assoc] at hreach
        exact hreach
      · intro hreach
        rw [← List.singleton_append, ← List.append_assoc] at hreach
        -- on the way there, the next segment has a node
        obtain ⟨c, hlt, hplace⟩ := h.reaches_of_prefix (List.prefix_append _ rest) hreach
        rw [← hplace] at hreach
        refine ⟨c, (h.child n c).mpr ⟨hn, hlt, s, hplace⟩, ?_, (ih hlt).mpr hreach⟩
        rw [h.label c hlt, hplace, List.getLast?_concat]

/-- **The paths of a tree of paths are the prefixes of these.** -/
theorem Tree.hasPath_ofPaths_iff (paths : List Path) (path : Path) :
    (Tree.ofPaths paths).HasPath path ↔ path = [] ∨ ∃ p ∈ paths, path <+: p := by
  obtain ⟨place, h, hreaches⟩ := IsTrie.ofPaths paths
  rw [Tree.HasPath, h.hasPath_iff path h.root_lt, h.place_root, List.nil_append, hreaches]

/-- A path that is added to a trie leaves it tidy: no node of a trie is spliced into another. -/
theorem IsTrie.isTidy_addPath {t : Tree} {place : NodeId → Path}
    (h : IsTrie t.graph t.root place) (htidy : t.graph.IsTidy) (path : Path) :
    (t.addPath path).graph.IsTidy := by
  have hnone : ¬ t.graph.IsSpliced t.root := by
    rintro ⟨n, hn⟩
    obtain ⟨cs, hcs⟩ := h.owned n
    rw [hcs] at hn
    exact absurd hn (by simp [Link.owning])
  exact htidy.ensureBranch path h.root_lt fun s _ => Graph.hasRoomFor_of_not_isSpliced hnone s

theorem IsTrie.isTidy_foldl_addPath {t : Tree} {place : NodeId → Path}
    (h : IsTrie t.graph t.root place) (htidy : t.graph.IsTidy) (paths : List Path) :
    (paths.foldl Tree.addPath t).graph.IsTidy := by
  induction paths generalizing t place with
  | nil => exact htidy
  | cons path rest ih =>
      obtain ⟨place', h', -⟩ := h.addPath path
      exact ih h' (h.isTidy_addPath htidy path)

/-- **In a tree of paths, nodes can be told by labels.** -/
theorem Tree.isUnambiguous_ofPaths (paths : List Path) : (Tree.ofPaths paths).IsUnambiguous := by
  obtain ⟨place, h, -⟩ := IsTrie.ofPaths paths
  have htidy : (Tree.ofPaths paths).graph.IsTidy :=
    IsTrie.empty.isTidy_foldl_addPath .empty paths
  have hlabel : (Tree.ofPaths paths).graph.label (Tree.ofPaths paths).root = none := by
    rw [h.label _ h.root_lt, h.place_root]
    rfl
  exact ⟨h.root_lt, hlabel, htidy.owned.isLabelled.isUnambiguous fun m _ => htidy.nodup_labels m⟩

end FieldSelection

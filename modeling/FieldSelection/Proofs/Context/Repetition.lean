import FieldSelection.Proofs.Context.Place
import FieldSelection.Proofs.Tree.PathTrie
import FieldSelection.Schema.Repository
import Mathlib.Algebra.Group.Nat.Defs

/-!
# Nodes that a context lists twice

A context lists the nodes that the names lead to, and it should list each once. Where one node
selects a name by a single child, this child is compared with those that were found; but where a
node selects it by several, as by `a` and by `*`, these are added unseen. So a node is repeated
exactly if several nodes come from one that is not the first to lead there.

In a trie that cannot happen, as no two nodes have a child in common. Where children are spliced
in, it can, and as the repeated nodes are followed again from each place where they stand, the
context may double at every name.
-/

namespace FieldSelection

variable {g : Graph} {t : Tree} {name : String} {names : List String} {n : NodeId}

/-- To split a list at an element is to split it at the first or behind it. -/
theorem forall_split_cons {α : Type} {a : α} {rest : List α} {P : List α → α → Prop} :
    (∀ before x after, a :: rest = before ++ x :: after → P before x) ↔
      P [] a ∧ ∀ before x after, rest = before ++ x :: after → P (a :: before) x := by
  constructor
  · intro h
    exact ⟨h [] a rest rfl, fun before x after heq => h (a :: before) x after (by rw [heq]; rfl)⟩
  · rintro ⟨hhead, htail⟩ before x after heq
    cases before with
    | nil =>
        cases heq
        exact hhead
    | cons b before =>
        obtain ⟨rfl, hrest⟩ := List.cons_eq_cons.mp heq
        exact htail before x after hrest

namespace Context

/-! ## One step -/

/-- Whether a step lists each node once: a node that selects the name by several children is the
first to lead to them. -/
def GivesOnce (g : Graph) (name : String) (ids : List NodeId) : Prop :=
  ∀ before n after, ids = before ++ n :: after →
    (∀ c c', Selected g [n] name c → Selected g [n] name c' → c = c') ∨
    ∀ c, Selected g [n] name c → ∀ m ∈ before, ¬ Selected g [m] name c

/-- What is gathered lists a node twice if several are added of which one was found before. -/
theorem nodup_gather_iff {f : NodeId → Option Context} {found ids out : List NodeId}
    (hf : ∀ n l, f n = some (.nodes l) → l.Nodup)
    (h : gather found (ids.filterMap f) = some out) :
    out.Nodup ↔ found.Nodup ∧ ∀ before n after, ids = before ++ n :: after →
      ∀ l, f n = some (.nodes l) →
        l.length ≤ 1 ∨ ∀ c ∈ l, c ∉ found ∧ ∀ m ∈ before, ¬ Holds (f m) c := by
  induction ids generalizing found with
  | nil =>
      cases h
      simp
  | cons n rest ih =>
      rw [forall_split_cons]
      cases hn : f n with
      | none =>
          rw [List.filterMap_cons_none hn] at h
          simp [ih h, hn]
      | some c =>
          rw [List.filterMap_cons_some hn] at h
          cases c with
          | all => exact absurd h (by simp [gather])
          | nodes l =>
              obtain ⟨found', hgather, hmem, hnodup⟩ := gather_nodes found l (rest.filterMap f)
              rw [hgather] at h
              rw [ih h, hnodup]
              -- what was found by now was found before or is added here
              simp only [hn, hmem, hf n l hn, not_or, Option.some.injEq, Context.nodes.injEq,
                forall_eq', List.mem_cons, forall_eq_or_imp, holds_nodes, List.not_mem_nil,
                true_and, and_assoc]
              simp

theorem union_eq_nodes_iff {contexts : List Context} {ids : List NodeId} :
    union contexts = some (.nodes ids) ↔ gather [] contexts = some ids ∧ ids ≠ [] := by
  rw [union]
  cases hgather : gather [] contexts with
  | none => simp
  | some found =>
      cases found with
      | nil => simp
      | cons n rest =>
          simp only [Option.some.injEq, Context.nodes.injEq, iff_self_and]
          rintro rfl
          simp

theorem mem_iff_selected {l : List NodeId} {c : NodeId} (h : ofField g name n = some (.nodes l)) :
    c ∈ l ↔ Selected g [n] name c := by
  rw [← holds_ofField_iff (by rw [h]; simp), h, holds_nodes]

/-- The children of one node are compared with each other. -/
theorem nodup_of_ofField {l : List NodeId} (h : ofField g name n = some (.nodes l)) : l.Nodup := by
  have hgather := (union_eq_nodes_iff.mp h).1
  rw [← List.filterMap_eq_map] at hgather
  have hone : ∀ m k, (some ∘ ofNode g) m = some (.nodes k) → k = [m] := by
    intro m k hk
    simp only [Function.comp_apply, Option.some.injEq, ofNode] at hk
    split at hk
    · exact absurd hk (by simp)
    · exact (Context.nodes.inj hk).symm
  refine (nodup_gather_iff (fun m k hk => ?_) hgather).mpr ⟨List.nodup_nil, ?_⟩
  · rw [hone m k hk]
    exact List.nodup_singleton m
  · intro before m after _ k hk
    rw [hone m k hk]
    exact Or.inl (Nat.le_refl 1)

theorem length_le_one_iff {l : List NodeId} (h : l.Nodup) :
    l.length ≤ 1 ↔ ∀ c ∈ l, ∀ c' ∈ l, c = c' := by
  match l with
  | [] => simp
  | [c] => simp
  | c :: c' :: rest =>
      refine iff_of_false (by simp) fun hall => ?_
      exact (List.nodup_cons.mp h).1 (by simp [hall c (by simp) c' (by simp)])

/-- **A step repeats no node exactly if it gives each once.** -/
theorem nodup_field_iff {ids next : List NodeId}
    (h : field g name (.nodes ids) = some (.nodes next)) :
    next.Nodup ↔ GivesOnce g name ids := by
  obtain ⟨hgather, -⟩ := union_eq_nodes_iff.mp h
  have hall : ∀ m ∈ ids, ofField g name m ≠ some .all := by
    intro m hm heq
    have hnone := (gather_eq_none_iff []).mpr (List.mem_filterMap.mpr ⟨m, hm, heq⟩)
    exact absurd (hgather.symm.trans hnone) (by simp)
  rw [nodup_gather_iff (fun _ _ => nodup_of_ofField) hgather, GivesOnce]
  simp only [List.nodup_nil, List.not_mem_nil, not_false_eq_true, true_and]
  refine forall_congr' fun before => forall_congr' fun n => forall_congr' fun after =>
    forall_congr' fun hsplit => ?_
  have hbefore : ∀ c, (∀ m ∈ before, ¬ Holds (ofField g name m) c) ↔
      ∀ m ∈ before, ¬ Selected g [m] name c := by
    refine fun c => forall_congr' fun m => forall_congr' fun hm => ?_
    rw [holds_ofField_iff (hall m (by simp [hsplit, hm]))]
  have hselected : ∀ c, Holds (ofField g name n) c ↔ Selected g [n] name c :=
    fun c => holds_ofField_iff (hall n (by simp [hsplit]))
  cases hn : ofField g name n with
  | none =>
      -- the node does not select the name
      rw [hn] at hselected
      simp only [not_holds_none, false_iff] at hselected
      simp [hselected]
  | some context =>
      cases context with
      | all => exact absurd hn (hall n (by simp [hsplit]))
      | nodes l =>
          simp only [Option.some.injEq, Context.nodes.injEq, forall_eq', hbefore,
            length_le_one_iff (nodup_of_ofField hn), mem_iff_selected hn]
          exact or_congr ⟨fun h c c' hc hc' => h c hc c' hc', fun h c hc c' hc' => h c c' hc hc'⟩
            Iff.rfl

end Context

namespace Tree

/-- Whether the last of these names lists each node once. -/
def GivesOnce (t : Tree) (names : List String) : Prop :=
  ∀ before name, names = before ++ [name] → ∀ ids, t.contextAt before = some (.nodes ids) →
    Context.GivesOnce t.graph name ids

theorem admitsAll_of_size_le (h : g.size ≤ n) : g.admitsAll n = true := by
  have hleaf : g.isLeaf n = true := Graph.isLeaf_iff.mpr (Graph.children_eq_nil_of_size_le h)
  rw [Graph.admitsAll, Graph.isOpenLeaf_iff_leadsToLeaf.mpr (.leaf hleaf), Bool.true_or]

/-- The nodes of a context are nodes of the tree. -/
theorem lt_size_of_holds (h : Context.Holds (t.contextAt names) n) : n < t.size := by
  have hnot : ¬ t.KeepsAll names := by
    intro hall
    rw [contextAt_eq_all_iff.mpr hall] at h
    obtain ⟨ids, heq, -⟩ := h
    exact absurd heq (by simp)
  by_contra hge
  have hadm := admitsAll_of_size_le (Nat.le_of_not_lt hge)
  rw [admitsAll_eq_false_of_leadsTo hnot ((holds_contextAt_iff hnot).mp h)] at hadm
  exact absurd hadm (by simp)

/-- **What the context of a place can be**: nothing, everything, or some nodes of the tree that
the names lead to. No node is listed twice exactly if the last name gives each once, and then
there are no more than the tree has. -/
theorem contextAt_cases (t : Tree) (names : List String) :
    t.contextAt names = none ∨ t.contextAt names = some .all ∨
      ∃ ids, t.contextAt names = some (.nodes ids) ∧ ids ≠ [] ∧
        (∀ n, n ∈ ids ↔ t.LeadsTo names n) ∧ (ids.Nodup ↔ t.GivesOnce names) ∧
        (t.GivesOnce names → ids.length ≤ t.size) := by
  match hcontext : t.contextAt names with
  | none => exact Or.inl rfl
  | some .all => exact Or.inr (Or.inl rfl)
  | some (.nodes ids) =>
      refine Or.inr (Or.inr ⟨ids, rfl, ?_⟩)
      have hnot : ¬ t.KeepsAll names := by
        rw [← contextAt_eq_all_iff, hcontext]
        simp
      have hmem : ∀ n, n ∈ ids ↔ t.LeadsTo names n := by
        intro n
        rw [← holds_contextAt_iff hnot, hcontext, Context.holds_nodes]
      have hshape : ids ≠ [] ∧ (ids.Nodup ↔ t.GivesOnce names) := by
        induction names using List.reverseRecOn with
        | nil =>
            rw [contextAt_nil, Context.ofNode] at hcontext
            split at hcontext
            · exact absurd hcontext (by simp)
            · cases hcontext
              exact ⟨by simp, iff_of_true (List.nodup_singleton _) fun _ _ h => absurd h (by simp)⟩
        | append_singleton before name _ =>
            rw [contextAt_concat] at hcontext
            obtain ⟨context, hbefore, hfield⟩ := Option.bind_eq_some_iff.mp hcontext
            cases context with
            | all => exact absurd hfield (by simp [Context.field])
            | nodes prior =>
                refine ⟨(Context.union_eq_nodes_iff.mp hfield).2, ?_⟩
                rw [Context.nodup_field_iff hfield]
                constructor
                · intro h before' name' heq ids' hids'
                  obtain ⟨rfl, hname⟩ := List.append_inj' heq rfl
                  obtain rfl := List.singleton_inj.mp hname
                  cases hbefore.symm.trans hids'
                  exact h
                · exact fun h => h before name rfl prior hbefore
      obtain ⟨hne, hnodup⟩ := hshape
      refine ⟨hne, hmem, hnodup, fun h => length_le_of_nodup (hnodup.mpr h) fun n hn => ?_⟩
      exact lt_size_of_holds (hcontext ▸ Context.holds_nodes.mpr hn)

/-! ## Tries -/

/-- In a trie no context lists a node twice. -/
theorem givesOnce_of_isTrie {place : NodeId → Path} (h : IsTrie t.graph t.root place)
    (names : List String) : t.GivesOnce names := by
  induction names using List.reverseRecOn with
  | nil => exact fun _ _ heq => absurd heq (by simp)
  | append_singleton names name ih =>
      intro before' name' heq ids hids earlier n later hsplit
      obtain ⟨rfl, -⟩ := List.append_inj' heq rfl
      obtain ⟨_, hids', -, -, hnodup, -⟩ :=
        ((t.contextAt_cases names).resolve_left (by rw [hids]; simp)).resolve_left
          (by rw [hids]; simp)
      cases hids.symm.trans hids'
      refine Or.inr fun c ⟨m, hm, hc, _⟩ m' hm' ⟨m'', hm'', hc', _⟩ => ?_
      -- a child of two nodes has one place, and so have they
      rw [List.mem_singleton.mp hm] at hc
      rw [List.mem_singleton.mp hm''] at hc'
      obtain ⟨hn, -, s, hplace⟩ := (h.child n c).mp hc
      obtain ⟨hn', -, s', hplace'⟩ := (h.child m' c).mp hc'
      obtain ⟨hsame, -⟩ := List.append_inj' (hplace.symm.trans hplace') rfl
      have hlisted := hnodup.mpr ih
      rw [hsplit, List.nodup_append', List.disjoint_right] at hlisted
      exact hlisted.2.2 List.mem_cons_self (h.inj n m' hn hn' hsame ▸ hm')

/-- The contexts of a tree of paths list no node twice. -/
theorem givesOnce_ofPaths (paths : List Path) (names : List String) :
    (ofPaths paths).GivesOnce names := by
  obtain ⟨_, htrie, -⟩ := IsTrie.ofPaths paths
  exact givesOnce_of_isTrie htrie names

/-! ## A context that doubles -/

/-- A node has nodes below it under `a` and under any other name. -/
def nestedNodes : Dictionary Schema :=
  [("Node", {
    type := some "object"
    properties := some [("a", { reference := some "Node" })]
    additional := some { reference := some "Node" } })]

/-- The tree of such nodes. Both children of the root have the children of the root. -/
def nested : Tree :=
  ⟨⟨#[⟨none, [.owned 1, .owned 2]⟩, ⟨some (.name "a"), [.spliced 0]⟩,
    ⟨some .wildcard, [.spliced 0]⟩]⟩, 0⟩

/-- Below two names, each of the two nodes that these lead to is listed twice, so that there are
more of them than the tree has. -/
theorem repeats_nodes :
    (Repository.tree { definitions := nestedNodes } "Node").1 = .ok nested ∧
      nested.contextAt ["a", "a"] = some (.nodes [1, 2, 1, 2]) ∧
      ¬ [1, 2, 1, 2].Nodup ∧ nested.size < [1, 2, 1, 2].length := by
  decide +kernel

/-- Nodes that all lead to the same several nodes list these once for each. -/
theorem gather_of_forall {ids l : List NodeId} (hl : 2 ≤ l.length)
    (h : ∀ n ∈ ids, Context.ofField g name n = some (.nodes l)) (found : List NodeId) :
    Context.gather found (ids.filterMap (Context.ofField g name)) =
      some (found ++ (List.replicate ids.length l).flatten) := by
  induction ids generalizing found with
  | nil => simp [Context.gather]
  | cons n rest ih =>
      have hseveral : ∀ more, Context.gather found (.nodes l :: more) =
          Context.gather (found ++ l) more := by
        intro more
        obtain _ | ⟨_, _ | ⟨_, _⟩⟩ := l
        · exact absurd hl (by simp)
        · exact absurd hl (by simp)
        · rfl
      rw [List.filterMap_cons_some (h n List.mem_cons_self), hseveral,
        ih fun m hm => h m (List.mem_cons_of_mem n hm)]
      simp [List.replicate_succ]

/-- **The context doubles at every name**, though the tree has three nodes. -/
theorem length_contextAt_nested (depth : Nat) :
    ∃ ids, nested.contextAt (List.replicate depth "a") = some (.nodes ids) ∧
      ids.length = 2 ^ depth := by
  have hboth : ∀ n < nested.size, Context.ofField nested.graph "a" n = some (.nodes [1, 2]) := by
    decide
  induction depth with
  | zero => exact ⟨[0], by decide, rfl⟩
  | succ depth ih =>
      obtain ⟨ids, hids, hlength⟩ := ih
      have hgather := gather_of_forall (l := [1, 2]) (Nat.le_refl 2)
        (fun n hn => hboth n (lt_size_of_holds (hids ▸ Context.holds_nodes.mpr hn))) []
      rw [List.nil_append] at hgather
      have hdoubled : (List.replicate ids.length [1, 2]).flatten.length = 2 ^ (depth + 1) := by
        simp [hlength, pow_succ]
      have hne : (List.replicate ids.length [1, 2]).flatten ≠ [] := by
        intro hnil
        rw [hnil] at hdoubled
        exact absurd hdoubled (Nat.ne_of_lt (Nat.two_pow_pos _))
      refine ⟨_, ?_, hdoubled⟩
      rw [List.replicate_succ', contextAt_concat, hids, Option.bind_some, Context.field,
        Context.union_eq_nodes_iff.mpr ⟨hgather, hne⟩]

end Tree

end FieldSelection

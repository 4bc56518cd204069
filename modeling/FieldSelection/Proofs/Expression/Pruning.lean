import FieldSelection.Expression
import FieldSelection.Proofs.Filtering.Copying
import FieldSelection.Proofs.Selection
import FieldSelection.Proofs.Tree.PathTrie

/-!
# What an expression means for a document

The paths of an expression say directly what is left of a document. Each value has the names
that lead to it; arrays add none. A value that a path covers is kept whole. A value without
values inside is also kept where a path passes it by a wildcard. Any other container is there
if something inside it is.

The filter works with the tree of the collapsed paths and with contexts. `FilterTrie` links
the two: the tree is the trie of these paths, so the context of a place keeps everything
exactly where a path covers it, and elsewhere a value without values inside exactly where a
path passes by a wildcard.
-/

namespace FieldSelection

open Json Filtering

/-! ## Pruning by paths -/

/-- Whether some path covers the place that these names lead to. -/
def coveredBy (paths : List Path) (names : List String) : Bool :=
  paths.any (·.covers names)

/-- Whether a value without values inside is kept at the place that these names lead to. -/
def scalarKeptBy (paths : List Path) (names : List String) : Bool :=
  coveredBy paths names || paths.any (·.passesByWildcard names)

mutual

/-- What paths leave of the value that these names lead to, if anything. -/
def prune (paths : List Path) (names : List String) : Value → Option Value
  | .array items =>
    if coveredBy paths names then some (.array items)
    else Value.ofKept .array (pruneItems paths names items)
  | .object members =>
    if coveredBy paths names then some (.object members)
    else Value.ofKept .object (pruneMembers paths names members)
  | scalar => if scalarKeptBy paths names then some scalar else none

/-- What paths leave of the elements of an array. -/
def pruneItems (paths : List Path) (names : List String) : List Value → List Value
  | [] => []
  | item :: rest => (prune paths names item).toList ++ pruneItems paths names rest

/-- What paths leave of the fields of an object. -/
def pruneMembers (paths : List Path) (names : List String) :
    List (String × Value) → List (String × Value)
  | [] => []
  | (name, value) :: rest =>
    ((prune paths (names ++ [name]) value).map fun kept => (name, kept)).toList
      ++ pruneMembers paths names rest

end

/-- What paths leave of a document. The outermost value is always there: a value without
values inside as it is, and a container at least as an empty one. -/
def pruneDocument (paths : List Path) (v : Value) : Value :=
  match v with
  | .array _ => (prune paths [] v).getD (.array [])
  | .object _ => (prune paths [] v).getD (.object [])
  | scalar => scalar

/-! ## Paths of an expression and their tree -/

/-- What is true of all paths of an expression that was read. -/
structure Selecting (paths : List Path) : Prop where
  /-- Something is selected. -/
  nonempty : paths ≠ []
  /-- Each path has a segment. -/
  ne_nil : ∀ p ∈ paths, p ≠ []
  /-- No path has the catch-all. -/
  noCatchAll : ∀ p ∈ paths, Segment.catchAll ∉ p
  /-- A path that ends in a wildcard is the wildcard alone. -/
  trimmed : ∀ p ∈ paths, ∀ q, p = q ++ [.wildcard] → q = []

/-- The trie of the collapsed paths. -/
structure FilterTrie (paths : List Path) (t : Tree) (place : NodeId → Path) : Prop where
  /-- The paths are those of an expression. -/
  selecting : Selecting paths
  /-- The tree is a trie. -/
  trie : IsTrie t.graph t.root place
  /-- The nodes stand for the prefixes of the collapsed paths. -/
  reaches : ∀ q, t.graph.Reaches place q ↔ q = [] ∨ ∃ p ∈ Path.collapse paths, q <+: p

variable {paths : List Path} {names : List String} {t : Tree} {place : NodeId → Path}

theorem coveredBy_iff : coveredBy paths names = true ↔ ∃ p ∈ paths, p.covers names = true := by
  simp [coveredBy]

namespace Selecting

/-- The collapsed paths cover what all of them cover. -/
theorem coveredBy_iff_collapse (h : Selecting paths) :
    coveredBy paths names = true ↔ ∃ p ∈ Path.collapse paths, p.covers names = true := by
  rw [coveredBy_iff]
  constructor
  · rintro ⟨p, hp, hcovers⟩
    obtain ⟨q, hq, hpfx⟩ := Path.exists_mem_collapse hp
    refine ⟨q, hq, Path.covers_iff.mpr ?_⟩
    rcases Path.covers_iff.mp hcovers with rfl | ⟨hle, hagrees⟩
    · have hne := h.ne_nil q (Path.mem_of_mem_collapse hq)
      obtain ⟨s, q', rfl⟩ := List.exists_cons_of_ne_nil hne
      obtain ⟨rfl, hq'⟩ := List.cons_prefix_cons.mp hpfx
      rw [List.prefix_nil.mp hq']
      exact Or.inl rfl
    · exact Or.inr ⟨Nat.le_trans hpfx.length_le hle, Path.agrees_of_prefix hpfx hagrees⟩
  · rintro ⟨p, hp, hcovers⟩
    exact ⟨p, Path.mem_of_mem_collapse hp, hcovers⟩

/-- As the only path that ends in a wildcard is the wildcard alone, to be covered is to be
kept as a whole. -/
theorem coveredBy_iff_keptWhole (h : Selecting paths) :
    coveredBy paths names = true ↔ Path.KeptWhole (Path.collapse paths) names := by
  rw [h.coveredBy_iff_collapse]
  constructor
  · rintro ⟨p, hp, hcovers⟩
    rcases Path.covers_iff.mp hcovers with rfl | ⟨hle, hagrees⟩
    · exact ⟨[], 1, hp, Nat.zero_le _, rfl⟩
    · exact ⟨p, 0, by simpa using hp, hle, hagrees⟩
  · rintro ⟨q, k, hk, hle, hagrees⟩
    refine ⟨_, hk, Path.covers_iff.mpr ?_⟩
    cases k with
    | zero => exact Or.inr ⟨by simpa using hle, by simpa using hagrees⟩
    | succ k =>
        rw [List.replicate_succ', ← List.append_assoc] at hk ⊢
        rw [h.trimmed _ (Path.mem_of_mem_collapse hk) _ rfl]
        exact Or.inl rfl

/-- A path that covers no place is longer than the names. -/
theorem length_lt_of_agrees (h : Selecting paths) (hnot : coveredBy paths names = false) {p : Path}
    (hp : p ∈ Path.collapse paths) (hagrees : p.agrees names = true) :
    names.length < p.length := by
  by_contra hle
  have hcovers := Path.covers_iff.mpr (Or.inr ⟨Nat.le_of_not_lt hle, hagrees⟩)
  exact absurd (h.coveredBy_iff_collapse.mpr ⟨p, hp, hcovers⟩) (by simp [hnot])

/-- A place that is not covered is reached by a wildcard where a path passes it by one. -/
theorem reachedByWildcard_iff (h : Selecting paths) (hnot : coveredBy paths names = false) :
    Path.ReachedByWildcard (Path.collapse paths) names ↔
      ∃ p ∈ paths, p.passesByWildcard names = true := by
  constructor
  · rintro ⟨q, hlength, hagrees, hlast, p, hp, rest, hrest⟩
    rw [List.getLast?_eq_getElem?, hlength] at hlast
    have hagrees' : p.agrees names = true := by
      rw [← hrest, Path.agrees_append (Nat.le_of_eq hlength.symm)]
      exact hagrees
    refine ⟨p, Path.mem_of_mem_collapse hp, Path.passesByWildcard_iff.mpr
      ⟨h.length_lt_of_agrees hnot hp hagrees', hagrees', ?_, ?_⟩⟩
    · rintro rfl
      rw [List.eq_nil_of_length_eq_zero hlength] at hlast
      exact absurd hlast (by simp)
    · rw [← hrest, List.getElem?_append_left (List.getElem?_eq_some_iff.mp hlast).1]
      exact hlast
  · rintro ⟨p, hp, hpasses⟩
    obtain ⟨_, hagrees, hne, hlast⟩ := Path.passesByWildcard_iff.mp hpasses
    obtain ⟨p', hp', hpfx⟩ := Path.exists_mem_collapse hp
    -- the path may not be in the tree, but the one that made it redundant is
    have hlt := h.length_lt_of_agrees hnot hp' (Path.agrees_of_prefix hpfx hagrees)
    have htake := List.take_prefix names.length p'
    have hlength : (p'.take names.length).length = names.length := by
      rw [List.length_take, Nat.min_eq_left (Nat.le_of_lt hlt)]
    obtain ⟨rest, hrest⟩ := htake.trans hpfx
    refine ⟨_, hlength, Path.agrees_of_prefix ⟨rest, hrest⟩ hagrees, ?_, p', hp', htake⟩
    have hpos : names.length - 1 < (p'.take names.length).length := by
      rw [hlength]
      exact Nat.sub_lt (List.length_pos_of_ne_nil hne) Nat.one_pos
    rw [List.getLast?_eq_getElem?, hlength, ← hlast, ← hrest, List.getElem?_append_left hpos]

end Selecting

namespace FilterTrie

theorem pathTrie (h : FilterTrie paths t place) : PathTrie (Path.collapse paths) t place :=
  .collapse h.selecting.nonempty h.selecting.noCatchAll h.trie h.reaches

/-- Everything is kept exactly at the covered places. -/
theorem keepsAll_iff (h : FilterTrie paths t place) :
    t.KeepsAll names ↔ coveredBy paths names = true := by
  rw [h.pathTrie.keepsAll_iff, h.selecting.coveredBy_iff_keptWhole]

/-- A value without values inside is kept as the paths say. -/
theorem any_keepsScalar (h : FilterTrie paths t place) :
    (t.contextAt names).any (Context.keepsScalar t.graph) = scalarKeptBy paths names := by
  rw [Bool.eq_iff_iff, Tree.any_keepsScalar_contextAt_iff, h.keepsAll_iff,
    h.pathTrie.exists_wildcard_iff, scalarKeptBy, Bool.or_eq_true, List.any_eq_true]
  cases hcovered : coveredBy paths names with
  | true => simp
  | false => rw [h.selecting.reachedByWildcard_iff hcovered]

end FilterTrie

/-! ## Pruning is what the filter keeps -/

theorem prune_of_isScalar {v : Value} (h : v.isScalar = true) :
    prune paths names v = if scalarKeptBy paths names then some v else none := by
  cases v with
  | array => exact absurd h (by simp [Value.isScalar])
  | object => exact absurd h (by simp [Value.isScalar])
  | null | bool | number | string => rfl

mutual

/-- **What the tree keeps of a value is what the paths leave of it.** -/
theorem FilterTrie.keptOf_eq_prune (h : FilterTrie paths t place) :
    ∀ (v : Value) (names : List String), keptOf t (t.contextAt names) v = prune paths names v
  | .array items, names => by
      rw [keptOf_array, prune, h.itemsOf_eq_pruneItems items names]
      exact if_congr (Tree.contextAt_eq_all_iff.trans h.keepsAll_iff) rfl rfl
  | .object members, names => by
      rw [keptOf_object, prune, h.membersOf_eq_pruneMembers members names]
      exact if_congr (Tree.contextAt_eq_all_iff.trans h.keepsAll_iff) rfl rfl
  | .null, names | .bool _, names | .number _, names | .string _, names => by
      rw [keptOf_of_isScalar rfl, prune_of_isScalar rfl, h.any_keepsScalar]

theorem FilterTrie.itemsOf_eq_pruneItems (h : FilterTrie paths t place) :
    ∀ (items : List Value) (names : List String),
      itemsOf t (t.contextAt names) items = pruneItems paths names items
  | [], names => by cases t.contextAt names <;> rfl
  | item :: rest, names => by
      rw [itemsOf_cons, pruneItems, h.keptOf_eq_prune item names,
        h.itemsOf_eq_pruneItems rest names]

theorem FilterTrie.membersOf_eq_pruneMembers (h : FilterTrie paths t place) :
    ∀ (members : List (String × Value)) (names : List String),
      membersOf t (t.contextAt names) members = pruneMembers paths names members
  | [], names => by cases t.contextAt names <;> rfl
  | (name, value) :: rest, names => by
      rw [membersOf_cons, pruneMembers, ← Tree.contextAt_concat,
        h.keptOf_eq_prune value (names ++ [name]), h.membersOf_eq_pruneMembers rest names]

end

theorem FilterTrie.project_eq (h : FilterTrie paths t place) (v : Value) :
    t.project v = pruneDocument paths v := by
  have hroot : ∀ v, (Context.ofNode t.graph t.root).project t.graph v = prune paths [] v :=
    fun v => h.keptOf_eq_prune v []
  cases v <;> simp only [Tree.project, pruneDocument, hroot]

/-! ## Expressions -/

theorem Expression.selecting_of_parse {text : String} {e : Expression}
    (h : Expression.parse text = .ok e) : Selecting e.allPaths where
  nonempty := e.allPaths_ne_nil
  ne_nil := fun _ hp => ne_nil_of_mem_allPaths hp
  noCatchAll := fun _ hp hcatch =>
    Segment.ne_catchAll_of_isWritable (isWritable_of_mem_allPaths h hp _ hcatch) rfl
  trimmed := by
    intro p hp r hr
    obtain ⟨q, _, rfl⟩ := List.mem_map.mp hp
    exact Path.eq_nil_of_dropTrailingWildcards hr

theorem Expression.filterTrie_of_parse {text : String} {e : Expression}
    (h : Expression.parse text = .ok e) : ∃ place, FilterTrie e.allPaths e.filterTree place := by
  obtain ⟨place, htrie, hreaches⟩ := IsTrie.ofPaths e.fieldPaths
  exact ⟨place, Expression.selecting_of_parse h, htrie, hreaches⟩

/-- **The meaning of an expression.** A document that is copied through the filter of an
expression is recorded as its paths prune it, told as events in order, and then it is over. -/
theorem copyFiltered_records_pruned {text : String} {e : Expression}
    (h : Expression.parse text = .ok e) (d : Value) :
    ∃ f, copyFiltered (.ofValue d) ({} : Recorder) e.filterTree = .accepted f ∧
      f.inner.records = (pruneDocument e.allPaths d).events.map .event ++ [.closed] := by
  obtain ⟨place, htrie⟩ := Expression.filterTrie_of_parse h
  obtain ⟨state, hcopy⟩ := copyFiltered_told e.filterTree d
  refine ⟨_, hcopy, ?_⟩
  rw [← htrie.project_eq d]
  exact Recorder.records_told _

/-- Below `a`, the empty `b` and the `c` one level deeper are kept, and a null beside them by
the wildcard that `c` is under. -/
theorem copyFiltered_records_pruned_group :
    ∃ e, Expression.parse "a(b,*/c)" = .ok e ∧
      ∃ f, copyFiltered
          (.ofValue (.object
            [("a", .object
              [("b", .array []), ("x", .null), ("y", .object [("c", .bool true), ("d", .null)])]),
             ("z", .object [])]))
          ({} : Recorder) e.filterTree = .accepted f ∧
        f.inner.records =
          (Value.object
            [("a", .object
              [("b", .array []), ("x", .null), ("y", .object [("c", .bool true)])])]).events.map
            .event ++ [.closed] := by
  have hparse : Expression.parse "a(b,*/c)" =
      .ok ⟨"a(b,*/c)", .one (.group (.name "a")
        (.cons (.leaf (.name "b")) (.one (.step .wildcard (.leaf (.name "c"))))))⟩ := rfl
  exact ⟨_, hparse, copyFiltered_records_pruned hparse _⟩

end FieldSelection

import FieldSelection.Proofs.Filtering.Copying
import FieldSelection.Proofs.Filtering.Lockstep
import FieldSelection.Proofs.Tree.PathTrie

/-!
# Wildcards at the end of paths select nothing of their own

The paths of an expression are stripped of the wildcards at their end before they are
collapsed. Of a list of paths, collapsing then drops others than it would have dropped
otherwise, and the nodes that were open leaves for a chain of wildcards below them are leaves.
The filter does not notice.

Both lists of paths come from the one that was given by cutting paths off. A path that is cut
off keeps all that it kept, so no place is lost; and it comes to no place by a wildcard that
the whole path did not come to. What could be gained or lost is a wildcard behind the cut, but
there everything is kept.
-/

namespace FieldSelection

open Json

namespace Path

variable {paths others : List Path} {names : List String}

/-! ## Paths that are cut off -/

/-- Each of these paths has a beginning among the others. -/
def BeginIn (paths others : List Path) : Prop := ∀ p ∈ paths, ∃ q ∈ others, q <+: p

/-- Each of these paths goes on among the others. -/
def GoOnIn (paths others : List Path) : Prop := ∀ p ∈ paths, ∃ q ∈ others, p <+: q

theorem beginIn_collapse (paths : List Path) : BeginIn paths (collapse paths) :=
  fun _ hp => exists_mem_collapse hp

theorem beginIn_of_subset (h : paths ⊆ others) : BeginIn paths others :=
  fun p hp => ⟨p, h hp, List.prefix_refl p⟩

theorem goOnIn_of_subset (h : paths ⊆ others) : GoOnIn paths others :=
  fun p hp => ⟨p, h hp, List.prefix_refl p⟩

theorem collapse_subset (paths : List Path) : collapse paths ⊆ paths :=
  fun _ hp => mem_of_mem_collapse hp

/-- A path is its beginning up to the last wildcards, and these. -/
theorem exists_eq_append_replicate (p : Path) :
    ∃ k, p = p.dropTrailingWildcards ++ List.replicate k .wildcard := by
  cases p with
  | nil => exact ⟨0, rfl⟩
  | cons s rest =>
      have hsplit := congrArg List.reverse
        (List.takeWhile_append_dropWhile (p := Segment.isWildcard) (l := rest.reverse))
      rw [List.reverse_append, List.reverse_reverse] at hsplit
      have hwild : ∀ s' ∈ (rest.reverse.takeWhile Segment.isWildcard).reverse,
          s' = Segment.wildcard := by
        intro s' hs'
        have hyes := List.all_eq_true.mp List.all_takeWhile s' (List.mem_reverse.mp hs')
        cases s' with
        | wildcard => rfl
        | name | catchAll => exact absurd hyes (by simp [Segment.isWildcard])
      refine ⟨(rest.reverse.takeWhile Segment.isWildcard).reverse.length, ?_⟩
      rw [dropTrailingWildcards, List.cons_append, ← List.eq_replicate_of_mem hwild, hsplit]

theorem beginIn_dropTrailingWildcards (paths : List Path) :
    BeginIn paths (paths.map dropTrailingWildcards) := by
  intro p hp
  obtain ⟨k, hk⟩ := exists_eq_append_replicate p
  exact ⟨_, List.mem_map_of_mem hp, _, hk.symm⟩

theorem dropTrailingWildcards_goOnIn (paths : List Path) :
    GoOnIn (paths.map dropTrailingWildcards) paths := by
  intro q hq
  obtain ⟨p, hp, rfl⟩ := List.mem_map.mp hq
  obtain ⟨k, hk⟩ := exists_eq_append_replicate p
  exact ⟨p, hp, _, hk.symm⟩

/-! ## Where everything is kept -/

/-- A path that is cut off keeps what it kept. -/
theorem KeptWhole.of_beginIn (hcut : BeginIn paths others) (h : KeptWhole paths names) :
    KeptWhole others names := by
  obtain ⟨q, k, hk, hle, hagrees⟩ := h
  obtain ⟨p, hp, hpfx⟩ := hcut _ hk
  -- it is cut off before its last wildcards, or among them
  rcases List.prefix_or_prefix_of_prefix hpfx (List.prefix_append q _) with hpq | ⟨r, rfl⟩
  · refine ⟨p, 0, by simpa using hp, Nat.le_trans hpq.length_le hle, ?_⟩
    exact agrees_of_prefix hpq hagrees
  · obtain ⟨_, hr⟩ := List.prefix_replicate_iff.mp (List.prefix_append_right_inj q |>.mp hpfx)
    exact ⟨q, r.length, by rw [← hr]; exact hp, hle, hagrees⟩

/-- Wildcards that are put at the end of a path keep nothing more. -/
theorem KeptWhole.of_dropTrailingWildcards
    (h : KeptWhole (paths.map dropTrailingWildcards) names) : KeptWhole paths names := by
  obtain ⟨q, k, hk, hle, hagrees⟩ := h
  obtain ⟨p, hp, hdrop⟩ := List.mem_map.mp hk
  obtain ⟨j, hj⟩ := exists_eq_append_replicate p
  rw [hdrop, List.append_assoc, List.replicate_append_replicate] at hj
  exact ⟨q, k + j, by rw [← hj]; exact hp, hle, hagrees⟩

/-- Trimmed or not, the collapsed paths keep everything at the same places. -/
theorem keptWhole_trimmed_iff (paths : List Path) :
    KeptWhole (collapse (paths.map dropTrailingWildcards)) names ↔
      KeptWhole (collapse paths) names := by
  constructor
  · intro h
    have hdropped := h.of_beginIn (beginIn_of_subset (collapse_subset _))
    exact hdropped.of_dropTrailingWildcards.of_beginIn (beginIn_collapse paths)
  · intro h
    have hwhole := h.of_beginIn (beginIn_of_subset (collapse_subset paths))
    exact (hwhole.of_beginIn (beginIn_dropTrailingWildcards paths)).of_beginIn (beginIn_collapse _)

/-! ## Where there is a wildcard -/

theorem ReachedByWildcard.of_goOnIn (hlonger : GoOnIn paths others)
    (h : ReachedByWildcard paths names) : ReachedByWildcard others names := by
  obtain ⟨q, hlength, hagrees, hlast, p, hp, hpfx⟩ := h
  obtain ⟨p', hp', hlong⟩ := hlonger p hp
  exact ⟨q, hlength, hagrees, hlast, p', hp', hpfx.trans hlong⟩

/-- A wildcard is not lost when paths are cut off, unless everything is kept there. -/
theorem ReachedByWildcard.of_beginIn (hcut : BeginIn paths others)
    (hnot : ¬ KeptWhole others names) (h : ReachedByWildcard paths names) :
    ReachedByWildcard others names := by
  obtain ⟨q, hlength, hagrees, hlast, p, hp, hpfx⟩ := h
  obtain ⟨p', hp', hpfx'⟩ := hcut p hp
  rcases List.prefix_or_prefix_of_prefix hpfx hpfx' with hbefore | hbehind
  · exact ⟨q, hlength, hagrees, hlast, p', hp', hbefore⟩
  · -- the path is cut off above the wildcard, so it keeps everything
    refine absurd ⟨p', 0, by simpa using hp', ?_, agrees_of_prefix hbehind hagrees⟩ hnot
    rw [← hlength]
    exact hbehind.length_le

theorem reachedByWildcard_trimmed_iff (hnot : ¬ KeptWhole (collapse paths) names) :
    ReachedByWildcard (collapse (paths.map dropTrailingWildcards)) names ↔
      ReachedByWildcard (collapse paths) names := by
  have hnot' := mt (keptWhole_trimmed_iff paths).mp hnot
  constructor
  · intro h
    have hdropped := h.of_goOnIn (goOnIn_of_subset (collapse_subset _))
    exact (hdropped.of_goOnIn (dropTrailingWildcards_goOnIn paths)).of_beginIn
      (beginIn_collapse paths) hnot
  · intro h
    have hwhole := h.of_goOnIn (goOnIn_of_subset (collapse_subset paths))
    refine hwhole.of_beginIn ?_ hnot'
    intro p hp
    obtain ⟨q, hq, hqp⟩ := beginIn_dropTrailingWildcards paths p hp
    obtain ⟨r, hr, hrq⟩ := beginIn_collapse _ q hq
    exact ⟨r, hr, hrq.trans hqp⟩

end Path

/-! ## Filters of trimmed paths -/

/-- Tries keep alike if their paths keep everything at the same places and come to the other
places by wildcards alike. -/
theorem PathTrie.keepAlike {paths others : List Path} {t u : Tree} {place place' : NodeId → Path}
    (ht : PathTrie paths t place) (hu : PathTrie others u place')
    (hkept : ∀ names, Path.KeptWhole others names ↔ Path.KeptWhole paths names)
    (hwild : ∀ names, ¬ Path.KeptWhole paths names →
      (Path.ReachedByWildcard others names ↔ Path.ReachedByWildcard paths names)) :
    t.KeepAlike u where
  all_iff names := by
    rw [Tree.contextAt_eq_all_iff, Tree.contextAt_eq_all_iff, ht.keepsAll_iff, hu.keepsAll_iff,
      hkept]
  scalar_eq names := by
    rw [Bool.eq_iff_iff, Tree.any_keepsScalar_contextAt_iff, Tree.any_keepsScalar_contextAt_iff,
      ht.keepsAll_iff, hu.keepsAll_iff, hkept, ht.exists_wildcard_iff, hu.exists_wildcard_iff]
    by_cases hall : Path.KeptWhole paths names
    · simp [hall]
    · rw [hwild names hall]

theorem Tree.keepAlike_trimmed {paths : List Path} (hcatch : ∀ p ∈ paths, Segment.catchAll ∉ p) :
    (Tree.ofPaths (Path.collapse paths)).KeepAlike
      (Tree.ofPaths (Path.collapse (paths.map Path.dropTrailingWildcards))) := by
  by_cases hne : paths = []
  · subst hne
    exact ⟨fun _ => Iff.rfl, fun _ => rfl⟩
  · obtain ⟨_, hwhole⟩ := PathTrie.ofPaths_collapse hne hcatch
    have hcatch' : ∀ p ∈ paths.map Path.dropTrailingWildcards, Segment.catchAll ∉ p := by
      intro p hp hmem
      obtain ⟨q, hq, rfl⟩ := List.mem_map.mp hp
      exact hcatch q hq (Path.mem_of_mem_dropTrailingWildcards hmem)
    obtain ⟨_, htrimmed⟩ := PathTrie.ofPaths_collapse (mt List.map_eq_nil_iff.mp hne) hcatch'
    exact hwhole.keepAlike htrimmed (fun _ => Path.keptWhole_trimmed_iff paths)
      fun _ => Path.reachedByWildcard_trimmed_iff

/-- **Trimming paths does not change what is filtered.** Whatever the source and the sink, the
copies through the trees of the paths as they are and of the trimmed paths fail alike or not at
all, tell the sink the same, and count the same matches; and the copy of a value does not
fail. -/
theorem copyFiltered_trimmed {paths : List Path} (hcatch : ∀ p ∈ paths, Segment.catchAll ∉ p) :
    let whole := Tree.ofPaths (Path.collapse paths)
    let trimmed := Tree.ofPaths (Path.collapse (paths.map Path.dropTrailingWildcards))
    (∀ {σ : Type} [Sink σ] (source : Source) (sink : σ),
      (copyFiltered source sink trimmed).failure? = (copyFiltered source sink whole).failure? ∧
      (copyFiltered source sink trimmed).sink.inner = (copyFiltered source sink whole).sink.inner ∧
      (copyFiltered source sink trimmed).sink.matchCount =
        (copyFiltered source sink whole).sink.matchCount) ∧
    ∀ v : Value, ∃ f f', copyFiltered (.ofValue v) ({} : Recorder) whole = .accepted f ∧
      copyFiltered (.ofValue v) ({} : Recorder) trimmed = .accepted f' ∧
      f'.inner.records = f.inner.records ∧ f'.matchCount = f.matchCount := by
  intro whole trimmed
  have hrelated : ∀ {σ : Type} [Sink σ] (source : Source) (sink : σ),
      Reply.Related (Filtering.Alike whole trimmed) (copyFiltered source sink whole)
        (copyFiltered source sink trimmed) :=
    fun source sink => copyFiltered_related (Tree.keepAlike_trimmed hcatch) source sink
  refine ⟨fun source sink => ?_, fun v => ?_⟩
  · have h := hrelated source sink
    exact ⟨h.failure?_eq.symm, h.sink.inner.symm, h.sink.state.matched.symm⟩
  · obtain ⟨state, hwhole⟩ := copyFiltered_told whole v
    obtain ⟨state', htrimmed⟩ := copyFiltered_told trimmed v
    have h := (hrelated (.ofValue v) ({} : Recorder)).sink
    rw [hwhole, htrimmed] at h
    exact ⟨_, _, hwhole, htrimmed, congrArg Recorder.records h.inner.symm, h.state.matched.symm⟩

/-- The wildcards below `a` make it an open leaf, and its `b` is dropped only when they are gone. -/
theorem copyFiltered_trimmed_open :
    let paths : List Path :=
      [[.name "a", .wildcard, .wildcard], [.name "a", .name "b"], [.wildcard, .name "c", .wildcard]]
    let v : Value := .object [("a", .object [("d", .null)]), ("x", .object [("c", .array [])])]
    Path.collapse paths = paths ∧
    Path.collapse (paths.map Path.dropTrailingWildcards) = [[.name "a"], [.wildcard, .name "c"]] ∧
    ∃ f f',
      copyFiltered (.ofValue v) ({} : Recorder) (Tree.ofPaths (Path.collapse paths)) =
        .accepted f ∧
      copyFiltered (.ofValue v) ({} : Recorder)
        (Tree.ofPaths (Path.collapse (paths.map Path.dropTrailingWildcards))) = .accepted f' ∧
      f'.inner.records = f.inner.records ∧ f'.matchCount = f.matchCount := by
  intro paths v
  refine ⟨by decide, by decide, ?_⟩
  exact (copyFiltered_trimmed (show ∀ p ∈ paths, Segment.catchAll ∉ p by decide)).2 v

end FieldSelection

import FieldSelection.Proofs.Expression.Requesting

/-!
# Retained fields and requested fields

Both questions go down a path and the names of a field side by side. To be retained, the field has
to go along with the path up to its first wildcard, and to be requested, along all of it. So a
requested field is retained, and without wildcards there is no difference.

A path that lies below another one adds nothing to either question: what goes along with the longer
path goes along with the shorter one. So it does not matter whether the questions are asked of all
paths of an expression or of those that collapsing leaves.
-/

namespace FieldSelection

namespace Checker

/-- Whether some of these paths keeps the field that the names lead to. -/
def retainedBy (paths : List Path) (names : List String) : Bool :=
  paths.any (sharesPrefix · names)

/-- Whether some of these paths overlaps with the names as a tree. -/
def requestedBy (paths : List Path) (names : List String) : Bool :=
  paths.any fun path =>
    (Tree.ofPath path).contains (.ofPath (names.map Segment.name)) ||
      (Tree.ofPath (names.map Segment.name)).contains (.ofPath path)

theorem retains_eq_retainedBy (e : Expression) : retains e = retainedBy e.fieldPaths := rfl

theorem requests_eq_requestedBy (e : Expression) : requests e = requestedBy e.fieldPaths := rfl

variable {path p q : Path} {paths : List Path} {names : List String}

/-! ## One path -/

/-- A path that agrees with some names shares a prefix with them. -/
theorem sharesPrefix_of_agrees (h : path.agrees names = true) :
    sharesPrefix path names = true := by
  induction path generalizing names with
  | nil => rfl
  | cons s path ih =>
      cases names with
      | nil => cases s <;> rfl
      | cons name names =>
          rw [Path.agrees, Bool.and_eq_true] at h
          cases s with
          | name expected =>
              rw [sharesPrefix, Bool.and_eq_true]
              exact ⟨h.1, ih h.2⟩
          | wildcard => rfl
          | catchAll => rfl

/-- If it has names only, that is the same. -/
theorem sharesPrefix_eq_agrees (hwild : Segment.wildcard ∉ path)
    (hcatch : Segment.catchAll ∉ path) : sharesPrefix path names = path.agrees names := by
  induction path generalizing names with
  | nil => rfl
  | cons s path ih =>
      rw [List.mem_cons, not_or] at hwild hcatch
      cases names with
      | nil => cases s <;> rfl
      | cons name names =>
          cases s with
          | name expected =>
              rw [sharesPrefix, Path.agrees, ih hwild.2 hcatch.2]
              rfl
          | wildcard => exact absurd rfl hwild.1
          | catchAll => exact absurd rfl hcatch.1

/-- What shares a prefix with a path shares one with each beginning of it. -/
theorem sharesPrefix_of_prefix (h : q <+: p) (hp : sharesPrefix p names = true) :
    sharesPrefix q names = true := by
  induction q generalizing p names with
  | nil => rfl
  | cons s q ih =>
      obtain ⟨p, rfl, hq⟩ := List.cons_prefix_iff.mp h
      cases names with
      | nil => cases s <;> rfl
      | cons name names =>
          cases s with
          | name expected =>
              rw [sharesPrefix, Bool.and_eq_true] at hp ⊢
              exact ⟨hp.1, ih hq hp.2⟩
          | wildcard => rfl
          | catchAll => rfl

/-! ## Many paths -/

theorem retainedBy_iff :
    retainedBy paths names = true ↔ ∃ p ∈ paths, sharesPrefix p names = true :=
  List.any_eq_true

theorem requestedBy_iff (hcatch : ∀ p ∈ paths, Segment.catchAll ∉ p) :
    requestedBy paths names = true ↔ ∃ p ∈ paths, p.agrees names = true := by
  rw [requestedBy, List.any_eq_true]
  refine exists_congr fun p => and_congr_right fun hp => ?_
  rw [Bool.or_eq_true, Tree.overlap_names_iff (hcatch p hp)]

/-- Collapsing does not change what is retained. -/
theorem retainedBy_collapse : retainedBy (Path.collapse paths) names = retainedBy paths names := by
  rw [Bool.eq_iff_iff, retainedBy_iff, retainedBy_iff]
  constructor
  · rintro ⟨p, hp, hshares⟩
    exact ⟨p, Path.mem_of_mem_collapse hp, hshares⟩
  · rintro ⟨p, hp, hshares⟩
    obtain ⟨q, hq, hpfx⟩ := Path.exists_mem_collapse hp
    exact ⟨q, hq, sharesPrefix_of_prefix hpfx hshares⟩

/-- Nor what is requested. -/
theorem requestedBy_collapse (hcatch : ∀ p ∈ paths, Segment.catchAll ∉ p) :
    requestedBy (Path.collapse paths) names = requestedBy paths names := by
  have hcollapsed : ∀ p ∈ Path.collapse paths, Segment.catchAll ∉ p :=
    fun p hp => hcatch p (Path.mem_of_mem_collapse hp)
  rw [Bool.eq_iff_iff, requestedBy_iff hcollapsed, requestedBy_iff hcatch]
  constructor
  · rintro ⟨p, hp, hagrees⟩
    exact ⟨p, Path.mem_of_mem_collapse hp, hagrees⟩
  · rintro ⟨p, hp, hagrees⟩
    obtain ⟨q, hq, hpfx⟩ := Path.exists_mem_collapse hp
    exact ⟨q, hq, Path.agrees_of_prefix hpfx hagrees⟩

theorem retainedBy_of_requestedBy (hcatch : ∀ p ∈ paths, Segment.catchAll ∉ p)
    (h : requestedBy paths names = true) : retainedBy paths names = true := by
  obtain ⟨p, hp, hagrees⟩ := (requestedBy_iff hcatch).mp h
  exact retainedBy_iff.mpr ⟨p, hp, sharesPrefix_of_agrees hagrees⟩

theorem retainedBy_eq_requestedBy (hcatch : ∀ p ∈ paths, Segment.catchAll ∉ p)
    (hwild : ∀ p ∈ paths, Segment.wildcard ∉ p) :
    retainedBy paths names = requestedBy paths names := by
  rw [Bool.eq_iff_iff, requestedBy_iff hcatch, retainedBy_iff]
  refine exists_congr fun p => and_congr_right fun hp => ?_
  rw [sharesPrefix_eq_agrees (hwild p hp) (hcatch p hp)]

/-! ## The checker -/

/-- **The two questions go together.** A checker that takes a path answers both: what is requested
is retained, and if no path of the expression has a wildcard, what is retained is requested. Each
answer is the same from the collapsed paths and from all paths of the expression. -/
theorem retained_and_requested {text : String} {c : Checker}
    (hparse : Expression.parse text = .ok c.expression) {path : String} {names : List String}
    (hnames : c.locate path = .ok names) :
    ∃ retained requested, c.isRetained path = .ok retained ∧ c.isRequested path = .ok requested ∧
      (requested = true → retained = true) ∧
      ((∀ p ∈ c.expression.fieldPaths, Segment.wildcard ∉ p) → retained = requested) ∧
      (retained = retainedBy c.expression.fieldPaths names ∧
        retained = retainedBy c.expression.allPaths names) ∧
      (requested = requestedBy c.expression.fieldPaths names ∧
        requested = requestedBy c.expression.allPaths names) := by
  have hcatch := (Expression.selecting_of_parse hparse).noCatchAll
  have hcollapsed : ∀ p ∈ c.expression.fieldPaths, Segment.catchAll ∉ p :=
    fun p hp => hcatch p (Path.mem_of_mem_collapse hp)
  refine ⟨retainedBy c.expression.fieldPaths names, requestedBy c.expression.fieldPaths names,
    ?_, ?_, retainedBy_of_requestedBy hcollapsed, retainedBy_eq_requestedBy hcollapsed,
    ⟨rfl, retainedBy_collapse⟩, ⟨rfl, requestedBy_collapse hcatch⟩⟩
  · rw [isRetained, hnames, retains_eq_retainedBy]
    rfl
  · rw [isRequested, hnames, requests_eq_requestedBy]
    rfl

/-- Below `a`, a field is retained by the wildcard without being requested: the path goes on with
another name. The path that is collapsed away lies below the one with the wildcard. -/
theorem retained_and_requested_wildcard :
    ∃ c : Checker, Expression.parse "a(*/c,*/c/d),b" = .ok c.expression ∧ c.start = ["a"] ∧
      c.locate "x/y" = .ok ["a", "x", "y"] ∧
      c.isRetained "x/y" = .ok true ∧ c.isRequested "x/y" = .ok false ∧
      retainedBy c.expression.allPaths ["a", "x", "y"] = true ∧
      requestedBy c.expression.allPaths ["a", "x", "y"] = false := by
  let e : Expression := ⟨"a(*/c,*/c/d),b", .cons (.group (.name "a")
    (.cons (.step .wildcard (.leaf (.name "c")))
      (.one (.step .wildcard (.step (.name "c") (.leaf (.name "d")))))))
    (.one (.leaf (.name "b")))⟩
  have hparse : Expression.parse "a(*/c,*/c/d),b" = .ok e := rfl
  have hnames : Checker.locate ⟨e, ["a"]⟩ "x/y" = .ok ["a", "x", "y"] := by decide +kernel
  obtain ⟨retained, requested, hretained, hrequested, -, -, ⟨hfields, hall⟩, ⟨hfields', hall'⟩⟩ :=
    retained_and_requested (c := ⟨e, ["a"]⟩) hparse hnames
  have htrue : retained = true := hfields.trans (by decide +kernel)
  have hfalse : requested = false := hfields'.trans (by decide +kernel)
  rw [htrue] at hretained hall
  rw [hfalse] at hrequested hall'
  exact ⟨⟨e, ["a"]⟩, hparse, rfl, hnames, hretained, hrequested, hall.symm, hall'.symm⟩

end Checker

end FieldSelection

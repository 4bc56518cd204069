import FieldSelection.Proofs.Schema.Growth

/-!
# What compiling achieves

Each step of compiling is said by what it ensures where it succeeds and where it fails. Where
it fails, the state has still only grown, so it can be cut back. Where it succeeds, the node
that was worked on is finished. Either way, it comes to what a survey of the fields comes to.

A field is added in two steps. Its node is made first, with a meaning but without links, and
then the links are added that its schema asks for. The items of an array ask for the same node
once more and find it, so they can be treated like the array.
-/

namespace FieldSelection

/-! ## Steps of compiling -/

/-- What a step ensures in a state, where it succeeds and where it fails. -/
def Compiler.Ensures {α : Type} (x : Compiler α) (c : Compilation)
    (ok : α → Compilation → Prop) (failed : SchemaError → Compilation → Prop) : Prop :=
  match x c with
  | .ok a c' => ok a c'
  | .error why c' => failed why c'

/-- A step that goes on from one that succeeds. -/
theorem Compiler.run_bind {α β : Type} {x : Compiler α} {f : α → Compiler β} {a : α}
    {c c₁ : Compilation} (hx : x c = .ok a c₁) : (x >>= f) c = f a c₁ := by
  show EStateM.bind x f c = f a c₁
  rw [EStateM.bind, hx]

namespace Compiler.Ensures

variable {α β : Type} {x : Compiler α} {c c₁ : Compilation} {ok ok' : α → Compilation → Prop}
  {failed failed' : SchemaError → Compilation → Prop}

theorem of_ok {a : α} (hx : x c = .ok a c₁) (h : ok a c₁) : Ensures x c ok failed := by
  rw [Ensures, hx]
  exact h

theorem of_throw {why : SchemaError} (h : failed why c) :
    Ensures (throw why : Compiler α) c ok failed := h

theorem imp (h : Ensures x c ok failed) (hok : ∀ a c', ok a c' → ok' a c')
    (hfailed : ∀ why c', failed why c' → failed' why c') : Ensures x c ok' failed' := by
  unfold Ensures at h ⊢
  split at h
  · exact hok _ _ h
  · exact hfailed _ _ h

/-- A step that goes on from another one. -/
theorem bind {f : α → Compiler β} {ok' : β → Compilation → Prop} (h : Ensures x c ok failed)
    (hf : ∀ a c', ok a c' → Ensures (f a) c' ok' failed) : Ensures (x >>= f) c ok' failed := by
  unfold Ensures at h
  show match EStateM.bind x f c with
    | .ok a c' => ok' a c'
    | .error why c' => failed why c'
  unfold EStateM.bind
  split at h
  · rename_i a c' hx
    rw [hx]
    exact hf a c' h
  · rename_i why c' hx
    rw [hx]
    exact h

theorem bind_of_ok {a : α} {f : α → Compiler β} {ok' : β → Compilation → Prop}
    (hx : x c = .ok a c₁) (h : Ensures (f a) c₁ ok' failed) : Ensures (x >>= f) c ok' failed := by
  rw [Ensures, run_bind hx]
  exact h

end Compiler.Ensures

namespace Compiler

variable {d : Dictionary Schema} {fuel : Nat} {root : String → Compiler NodeId}

/-- The graph has no part in which names are known. -/
theorem known_of_growing {α : Type} {grow : Graph → Graph × α} {a : α} {c c₁ : Compilation}
    (h : growing grow c = .ok a c₁) : c₁.known = c.known := by
  rcases hg : grow c.graph with ⟨g, x⟩
  rw [growing, hg] at h
  cases h
  rfl

/-! ## What is to be ensured -/

/-- What is left where these fields cannot be compiled: the state has only grown, and the error
is the one that a survey meets. -/
structure Failed (d : Dictionary Schema) (fields : List (Segment × Schema))
    (changed : List NodeId) (c : Compilation) (why : SchemaError) (c' : Compilation) : Prop where
  /-- The state has only grown. -/
  grown : Grown changed c c'
  /-- The error is met. -/
  survey : Schema.Surveys d c.known fields (.error why)

/-- The fields that come next play no part. -/
theorem Failed.append {fields : List (Segment × Schema)} {changed : List NodeId}
    {c c' : Compilation} {why : SchemaError} (h : Failed d fields changed c why c')
    (rest : List (Segment × Schema)) : Failed d (fields ++ rest) changed c why c' :=
  ⟨h.grown, h.survey.append_error rest⟩

/-- What is achieved where these fields can be compiled: all is built, and the names that are known
then are those that a survey comes to. -/
structure Succeeded (d : Dictionary Schema) (fields : List (Segment × Schema))
    (unfinished changed : List NodeId) (c : Compilation) (m : Meaning) (c' : Compilation) :
    Prop where
  /-- All is built. -/
  built : ∃ m', Built d unfinished changed c m c' m'
  /-- The names are those of a survey. -/
  survey : Schema.Surveys d c.known fields (.ok c'.known)

/-- The root of a name can be had, with fuel for each definition that was not entered. -/
def RootSpec (d : Dictionary Schema) (fuel : Nat) (root : String → Compiler NodeId) : Prop :=
  ∀ ⦃name : String⦄ ⦃unfinished : List NodeId⦄ ⦃c : Compilation⦄ ⦃m : Meaning⦄,
    c.unentered d ≤ fuel → Building d unfinished c m →
    Ensures (root name) c
      (fun r c' => Succeeded d [(.wildcard, Schema.naming name)] unfinished [] c m c' ∧
        c'.roots.get? name = some r)
      (Failed d [(.wildcard, Schema.naming name)] [] c)

/-- A node that was made for a field with this schema and has no links yet. -/
structure Awaiting (d : Dictionary Schema) (s : Schema) (label : Segment) (k : NodeId)
    (unfinished : List NodeId) (c : Compilation) (m : Meaning) : Prop where
  /-- It has the label of the field. -/
  label : c.graph.label k = some label
  /-- It has no links. -/
  links : c.graph.links k = []
  /-- It means what the schema says. -/
  meaning : m k = s.content
  /-- It is being worked on. -/
  building : Building d (k :: unfinished) c m

theorem Awaiting.lt {s : Schema} {label : Segment} {k : NodeId} {unfinished : List NodeId}
    {c : Compilation} {m : Meaning} (h : Awaiting d s label k unfinished c m) :
    k < c.graph.size :=
  Graph.lt_size_of_label h.label

/-- The node of a field gets the links that the schema asks for. The state `c₁` is the one with
the node. -/
def FieldSpec (d : Dictionary Schema) (fuel : Nat) (root : String → Compiler NodeId)
    (s : Schema) : Prop :=
  ∀ ⦃parent k : NodeId⦄ ⦃label : Segment⦄ ⦃unfinished : List NodeId⦄ ⦃c c₁ : Compilation⦄
    ⦃m : Meaning⦄,
    growing (·.ensureChild parent label) c = .ok k c₁ → c₁.graph.child? parent label = some k →
    c₁.unentered d ≤ fuel → Awaiting d s label k unfinished c₁ m →
    Ensures (addField root parent label s) c
      (fun _ c' => Succeeded d [(label, s)] unfinished [k] c₁ m c')
      (Failed d [(label, s)] [k] c₁)

/-- A node that is worked on gets children for these fields, behind those that it has. -/
def FieldsSpec (d : Dictionary Schema) (fuel : Nat) (add : NodeId → Compiler Unit)
    (fields : List (Segment × Schema)) : Prop :=
  ∀ ⦃parent : NodeId⦄ ⦃cs unfinished : List NodeId⦄ ⦃c : Compilation⦄ ⦃m : Meaning⦄,
    parent ∈ unfinished → parent < c.graph.size → c.graph.links parent = Link.owning cs →
    (∀ n ∈ cs, n < c.graph.size ∧ ∀ field ∈ fields, c.graph.label n ≠ some field.1) →
    c.unentered d ≤ fuel → Building d unfinished c m →
    Ensures (add parent) c
      (fun _ c' => (∃ m' ks, Built d unfinished [parent] c m c' m' ∧
          c'.graph.links parent = Link.owning (cs ++ ks) ∧
          List.Forall₂ (StandsFor c'.graph m') ks fields) ∧
        Schema.Surveys d c.known fields (.ok c'.known))
      (Failed d fields [parent] c)

/-! ## Fields, one after the other -/

namespace FieldsSpec

variable {add add₁ add₂ : NodeId → Compiler Unit} {fields fields₁ fields₂ : List (Segment × Schema)}

theorem nil : FieldsSpec d fuel (fun _ => pure ()) [] := by
  intro parent cs unfinished c m _ _ hlinks _ _ hb
  refine Ensures.of_ok rfl ⟨⟨m, [], .refl hb, ?_, .nil⟩, .done⟩
  rw [hlinks, List.append_nil]

theorem seq (h₁ : FieldsSpec d fuel add₁ fields₁) (h₂ : FieldsSpec d fuel add₂ fields₂)
    (hlabels : ∀ f₁ ∈ fields₁, ∀ f₂ ∈ fields₂, f₁.1 ≠ f₂.1) :
    FieldsSpec d fuel (fun n => do add₁ n; add₂ n) (fields₁ ++ fields₂) := by
  intro parent cs unfinished c m hp hlt hlinks hfresh hfuel hb
  have hfresh₁ : ∀ n ∈ cs, n < c.graph.size ∧ ∀ field ∈ fields₁, c.graph.label n ≠ some field.1 :=
    fun n hn => ⟨(hfresh n hn).1, fun f hf => (hfresh n hn).2 f (List.mem_append_left _ hf)⟩
  have hrun₁ := (h₁ hp hlt hlinks hfresh₁ hfuel hb).imp (fun _ _ hok => hok)
    fun _ _ hfailed => hfailed.append fields₂
  refine hrun₁.bind ?_
  rintro ⟨⟩ c₁ ⟨⟨m₁, ks₁, hbuilt₁, hlinks₁, hks₁⟩, hsurvey₁⟩
  have hfresh₂ : ∀ n ∈ cs ++ ks₁, n < c₁.graph.size ∧
      ∀ field ∈ fields₂, c₁.graph.label n ≠ some field.1 := by
    intro n hn
    rcases List.mem_append.mp hn with hn | hn
    · obtain ⟨hlt, hno⟩ := hfresh n hn
      refine ⟨Nat.lt_of_lt_of_le hlt hbuilt₁.grown.size_le, fun f hf => ?_⟩
      rw [hbuilt₁.grown.label n hlt]
      exact hno f (List.mem_append_right _ hf)
    · obtain ⟨f₁, hf₁, hstands⟩ := exists_mem_of_forall₂ hks₁ hn
      refine ⟨hstands.lt, fun f hf => ?_⟩
      rw [hstands.label]
      exact fun heq => hlabels f₁ hf₁ f hf (Option.some.inj heq)
  have hlt₁ := Nat.lt_of_lt_of_le hlt hbuilt₁.grown.size_le
  have hfuel₁ := Nat.le_trans hbuilt₁.grown.unentered_le hfuel
  refine (h₂ hp hlt₁ hlinks₁ hfresh₂ hfuel₁ hbuilt₁.building).imp ?_ ?_
  · rintro ⟨⟩ c₂ ⟨⟨m₂, ks₂, hbuilt₂, hlinks₂, hks₂⟩, hsurvey₂⟩
    refine ⟨⟨m₂, ks₁ ++ ks₂, hbuilt₁.trans hbuilt₂ fun n hn _ => hn, ?_, ?_⟩, ?_⟩
    · rw [hlinks₂, List.append_assoc]
    · exact List.rel_append (hks₁.imp fun _ _ h => h.grown hbuilt₂.grown hbuilt₂.meaning) hks₂
    · exact hsurvey₁.append hsurvey₂
  · intro why c₂ hfailed₂
    exact ⟨hbuilt₁.grown.trans hfailed₂.grown fun n hn _ => hn, hsurvey₁.append hfailed₂.survey⟩

/-- The node of a field whose label no child has yet. -/
theorem exists_awaiting {label : Segment} (s : Schema) {parent : NodeId}
    {cs unfinished : List NodeId} {c : Compilation} {m : Meaning} (hp : parent ∈ unfinished)
    (hlt : parent < c.graph.size) (hlinks : c.graph.links parent = Link.owning cs)
    (hfresh : ∀ n ∈ cs, n < c.graph.size ∧ c.graph.label n ≠ some label)
    (hb : Building d unfinished c m) :
    ∃ c₁ m₁, growing (·.ensureChild parent label) c = .ok c.graph.size c₁ ∧
      c₁.graph.child? parent label = some c.graph.size ∧
      Awaiting d s label c.graph.size unfinished c₁ m₁ ∧
      Built d (c.graph.size :: unfinished) [parent] c m c₁ m₁ ∧
      c₁.graph.links parent = Link.owning (cs ++ [c.graph.size]) := by
  let c₁ : Compilation := { c with graph := c.graph.withChild parent label }
  let m₁ : Meaning := fun n => if n = c.graph.size then s.content else m n
  have hold : ∀ n, n < c.graph.size → m₁ n = m n := fun n hn => if_neg (Nat.ne_of_lt hn)
  have hnew : m₁ c.graph.size = s.content := if_pos rfl
  have hsize : c₁.graph.size = c.graph.size + 1 := Graph.size_withChild
  have hlt₁ : c.graph.size < c₁.graph.size := hsize ▸ Nat.lt_succ_self _
  have hstep : growing (·.ensureChild parent label) c = .ok c.graph.size c₁ := by
    have hnone := Graph.child?_eq_none_of_owning hlinks fun n hn => (hfresh n hn).2
    rw [growing, Graph.ensureChild_of_none hnone]
  have hchild : c₁.graph.child? parent label = some c.graph.size :=
    Graph.child?_withChild hlinks hlt hfresh
  have hempty : c₁.graph.links c.graph.size = [] := by
    rw [Graph.links_withChild_of_ne (Nat.ne_of_gt hlt),
      Graph.links_eq_nil_of_size_le (Nat.le_refl _)]
  have hbuilt : Built d (c.graph.size :: unfinished) [parent] c m c₁ m₁ := by
    have honly : ∀ n, c.graph.size ≤ n → n < c₁.graph.size → n = c.graph.size := by
      intro n hge hn
      omega
    refine hb.grow (.of_graph ?_ ?_ ?_) ?_ hold (by simp [hp]) (List.subset_cons_self _ _) ?_ ?_
    · exact Nat.le_of_lt hlt₁
    · exact fun n hn => Graph.label_withChild_of_lt hn
    · exact fun n _ hnot => Graph.links_withChild_of_ne (by simpa using hnot)
    · exact hb.owned.withChild hlt hlinks fun n hn => (hfresh n hn).2
    · intro n hge hn
      rw [honly n hge hn, Graph.label_withChild_size]
      exact Option.some_ne_none label
    · -- the only node that is new is being worked on
      intro n hge hn hnot
      exact absurd (honly n hge hn ▸ List.mem_cons_self) hnot
  refine ⟨c₁, m₁, hstep, hchild, ⟨Graph.label_withChild_size, hempty, hnew, hbuilt.building⟩,
    hbuilt, ?_⟩
  rw [Graph.links_withChild_self hlt, hlinks, Link.owning_append]
  rfl

/-- A field whose label no child has gets a node of its own, and that is finished. -/
theorem single {label : Segment} {s : Schema} (h : FieldSpec d fuel root s)
    (hne : label ≠ .catchAll) :
    FieldsSpec d fuel (fun n => addField root n label s) [(label, s)] := by
  intro parent cs unfinished c m hp hlt hlinks hfresh hfuel hb
  have hno : ∀ n ∈ cs, n < c.graph.size ∧ c.graph.label n ≠ some label :=
    fun n hn => ⟨(hfresh n hn).1, (hfresh n hn).2 (label, s) (List.mem_singleton_self _)⟩
  obtain ⟨c₁, m₁, hstep, hchild, hwait, hbuilt₁, hlinks₁⟩ :=
    exists_awaiting s hp hlt hlinks hno hb
  have hknown : c₁.known = c.known := known_of_growing hstep
  have hfuel₁ := Nat.le_trans hbuilt₁.grown.unentered_le hfuel
  rw [← hknown]
  refine (h hstep hchild hfuel₁ hwait).imp ?_ ?_
  · rintro ⟨⟩ c' ⟨⟨m', hbuilt'⟩, hsurvey⟩
    refine ⟨⟨m', [c.graph.size], hbuilt₁.trans hbuilt' (changed_of_new c _), ?_, .cons ?_ .nil⟩,
      hsurvey⟩
    · -- the parent is not the new node, so it keeps its links
      rw [hbuilt'.grown.links parent (Nat.lt_trans hlt hwait.lt)
        (by simpa using Nat.ne_of_lt hlt), hlinks₁]
    · refine ⟨Nat.lt_of_lt_of_le hwait.lt hbuilt'.grown.size_le, ?_, hne, ?_⟩
      · rw [hbuilt'.grown.label _ hwait.lt, hwait.label]
      · rw [hbuilt'.meaning _ hwait.lt, hwait.meaning]
  · intro why c' hfailed'
    refine ⟨hbuilt₁.grown.trans hfailed'.grown (changed_of_new c _), ?_⟩
    rw [← hknown]
    exact hfailed'.survey

end FieldsSpec

/-! ## The kinds of schemas -/

/-- The links that a schema asks for, at the node of its field. -/
def addLinks (root : String → Compiler NodeId) (parent : NodeId) (label : Segment) (s : Schema)
    (k : NodeId) : Compiler Unit :=
  match Schema.kindOf s.reference s.type with
  | .error flaw => throw (.invalidSchema label flaw)
  | .ok (.reference target) => do splicing k (← root target)
  | .ok .array =>
    match s.items with
    | some items => addField root parent label items
    | none => throw (.invalidSchema label .arrayWithoutItems)
  | .ok .object => do
    addProperties root k s.properties
    addAdditional root k s.additional
  | .ok .any => discard <| growing (·.setCatchAll k)
  | .ok .primitive => pure ()

/-- A field is added by its node, and then by the links of that. -/
theorem addField_eq (root : String → Compiler NodeId) (parent : NodeId) (label : Segment)
    (s : Schema) :
    addField root parent label s =
      growing (·.ensureChild parent label) >>= addLinks root parent label s := by
  obtain ⟨id, type, reference, properties, additional, items⟩ := s
  rw [addField.eq_def]
  dsimp only
  congr 1

namespace Awaiting

variable {s : Schema} {k : NodeId} {label : Segment} {unfinished : List NodeId}
  {c : Compilation} {m : Meaning}

theorem links_eq (h : Awaiting d s label k unfinished c m) :
    c.graph.links k = Link.owning [] := h.links

/-- A field below which nothing is possible needs no links. -/
theorem primitive (h : Awaiting d s label k unfinished c m)
    (hcontent : s.content = .fields []) : Built d unfinished [k] c m c m :=
  .refl (h.building.finish (.fields (h.meaning.trans hcontent) h.links_eq .nil))

/-- A field below which anything is possible gets the catch-all. -/
theorem anything (h : Awaiting d s label k unfinished c m)
    (hcontent : s.content = .anything) :
    ∃ c' m', (discard <| growing (·.setCatchAll k)) c = .ok () c' ∧
      Built d unfinished [k] c m c' m' ∧ c'.known = c.known := by
  let g₁ := (c.graph.setCatchAll k).1
  let m₁ : Meaning := fun n => if n = c.graph.size then .fields [] else m n
  have hold : ∀ n, n < c.graph.size → m₁ n = m n := fun n hn => if_neg (Nat.ne_of_lt hn)
  have hnew : m₁ c.graph.size = .fields [] := if_pos rfl
  have hempty : g₁.links c.graph.size = Link.owning [] := by
    rw [Graph.links_setCatchAll_of_ne (Nat.ne_of_gt h.lt),
      Graph.links_eq_nil_of_size_le (Nat.le_refl _)]
    rfl
  have honly : ∀ n, c.graph.size ≤ n → n < g₁.size → n = c.graph.size := by
    intro n hge hlt
    have hsize : g₁.size = c.graph.size + 1 := Graph.size_setCatchAll
    omega
  have hbuilt : Built d (k :: unfinished) [k] c m { c with graph := g₁ } m₁ := by
    refine h.building.grow (.of_graph ?_ ?_ ?_) (h.building.owned.setCatchAll h.lt) hold
      (by simp) (fun _ hn => hn) ?_ ?_
    · rw [Graph.size_setCatchAll]
      exact Nat.le_succ _
    · exact fun n hn => Graph.label_setCatchAll_of_lt hn
    · exact fun n _ hnot => Graph.links_setCatchAll_of_ne (by simpa using hnot)
    · intro n hge hlt
      rw [honly n hge hlt, Graph.label_setCatchAll_size]
      exact Option.some_ne_none _
    · -- the only node that is new is the catch-all
      intro n hge hlt _
      rw [honly n hge hlt]
      exact .fields hnew hempty .nil
  have hfinished : Finished { c with graph := g₁ } m₁ k := by
    refine .anything ?_ (Graph.links_setCatchAll_self h.lt) Graph.label_setCatchAll_size hnew
    rw [hold k h.lt, h.meaning, hcontent]
  exact ⟨_, m₁, rfl,
    ⟨hbuilt.grown, hbuilt.meaning, hbuilt.building.finish hfinished⟩, rfl⟩

/-- A root can be spliced into a node without links. It may still be worked on itself: only its
name counts here, not its links. -/
theorem splice (h : Awaiting d s label k unfinished c m) {target : String}
    (hcontent : s.content = .reference target) {r : NodeId}
    (hr : c.roots.get? target = some r) :
    ∃ c', splicing k r c = .ok () c' ∧ Built d unfinished [k] c m c' m ∧ c'.known = c.known := by
  obtain ⟨_, hlabel, _⟩ := h.building.root target r hr
  have hchildren : c.graph.children k = [] := Graph.children_of_owning h.links_eq
  have hshared : c.graph.sharedLabels k r = [] := by
    rw [Graph.sharedLabels, List.filter_eq_nil_iff]
    intro s _
    simp [Graph.childLabels, hchildren]
  have hmerge : c.graph.merge k r = .ok (c.graph.addLink k (.spliced r)) := by
    rw [Graph.merge, if_pos (by rw [Graph.isRoot, hlabel]; rfl), hshared]
  let c' : Compilation := { c with graph := c.graph.addLink k (.spliced r) }
  have hbuilt : Built d (k :: unfinished) [k] c m c' m := by
    refine h.building.grow (.of_graph ?_ ?_ ?_) (h.building.owned.addSplice h.lt r)
      (fun _ _ => rfl) (by simp) (fun _ hn => hn) ?_ ?_
    · exact Nat.le_of_eq (Graph.size_addLink _ _ _).symm
    · exact fun n _ => Graph.label_addLink _ _ n
    · exact fun n _ hnot => Graph.links_addLink_of_ne _ (by simpa using hnot)
    · intro n hge hlt
      rw [Graph.size_addLink] at hlt
      exact absurd hge (Nat.not_le_of_lt hlt)
    · intro n hge hlt _
      rw [Graph.size_addLink] at hlt
      exact absurd hge (Nat.not_le_of_lt hlt)
  have hfinished : Finished c' m k := by
    refine .spliced (h.meaning.trans hcontent) ?_ ?_ hr
    · rw [Graph.label_addLink, h.label]
      exact Option.some_ne_none label
    · rw [Graph.links_addLink_self _ h.lt, h.links]
      rfl
  refine ⟨c', ?_, ⟨hbuilt.grown, hbuilt.meaning, hbuilt.building.finish hfinished⟩, rfl⟩
  rw [splicing, hmerge]

/-- A node waits as before when schemas were entered meanwhile. -/
theorem after (h : Awaiting d s label k unfinished c m) {c₁ : Compilation} {m₁ : Meaning}
    (hbuilt : Built d (k :: unfinished) [] c m c₁ m₁) :
    Awaiting d s label k unfinished c₁ m₁ where
  label := by rw [hbuilt.grown.label k h.lt, h.label]
  links := by rw [hbuilt.grown.links k h.lt List.not_mem_nil, h.links]
  meaning := by rw [hbuilt.meaning k h.lt, h.meaning]
  building := hbuilt.building

/-- A reference gets the children of the root of its target. -/
theorem reference (hroot : RootSpec d fuel root) {target : String}
    (h : Awaiting d s label k unfinished c m) (hfuel : c.unentered d ≤ fuel)
    (hkind : Schema.kindOf s.reference s.type = .ok (.reference target)) :
    Ensures (do splicing k (← root target)) c
      (fun _ c' => Succeeded d [(label, s)] unfinished [k] c m c')
      (Failed d [(label, s)] [k] c) := by
  have hsurvey : Schema.survey d c.known label s =
      Schema.survey d c.known .wildcard (Schema.naming target) := Schema.survey_of_reference hkind
  refine Ensures.bind ((hroot hfuel h.building).imp (fun _ _ hok => hok) ?_) ?_
  · intro why c' hfailed
    exact ⟨hfailed.grown.mono (List.nil_subset _), hfailed.survey.congr_survey hsurvey⟩
  · rintro r c₁ ⟨⟨⟨m₁, hbuilt₁⟩, hsurvey₁⟩, hr⟩
    obtain ⟨c₂, hstep, hbuilt₂, hknown⟩ :=
      (h.after hbuilt₁).splice (Schema.content_of_reference hkind) hr
    have hbuilt := (hbuilt₁.mono (List.nil_subset [k])).trans hbuilt₂ fun _ hn _ => hn
    refine Ensures.of_ok hstep ⟨⟨m₁, hbuilt⟩, ?_⟩
    rw [hknown]
    exact hsurvey₁.congr_survey hsurvey

/-- An object gets children for its fields. -/
theorem object (hfields : FieldsSpec d fuel
      (fun n => do addProperties root n s.properties; addAdditional root n s.additional) s.fields)
    (h : Awaiting d s label k unfinished c m) (hfuel : c.unentered d ≤ fuel)
    (hkind : Schema.kindOf s.reference s.type = .ok .object) :
    Ensures (do addProperties root k s.properties; addAdditional root k s.additional) c
      (fun _ c' => Succeeded d [(label, s)] unfinished [k] c m c')
      (Failed d [(label, s)] [k] c) := by
  have hsurvey : Schema.survey d c.known label s = .ok (c.known, s.fields) := by
    rw [Schema.survey, hkind]
  refine (hfields List.mem_cons_self h.lt h.links_eq (by simp) hfuel h.building).imp ?_ ?_
  · rintro ⟨⟩ c' ⟨⟨m', ks, hbuilt, hlinks, hks⟩, hsurvey'⟩
    refine ⟨⟨m', hbuilt.grown, hbuilt.meaning, hbuilt.building.finish (.fields ?_ hlinks hks)⟩, ?_⟩
    · rw [hbuilt.meaning k h.lt, h.meaning, Schema.content_of_object hkind]
    · exact .step hsurvey (hsurvey'.append .done)
  · intro why c' hfailed
    exact ⟨hfailed.grown, .step hsurvey (hfailed.survey.append_error [])⟩

end Awaiting

/-! ## All schemas -/

theorem FieldSpec.of_kind {s : Schema} (hroot : RootSpec d fuel root)
    (hfields : FieldsSpec d fuel
      (fun n => do addProperties root n s.properties; addAdditional root n s.additional) s.fields)
    (hitems : ∀ items, s.items = some items → FieldSpec d fuel root items) :
    FieldSpec d fuel root s := by
  intro parent k label unfinished c c₁ m hstep hchild hfuel hwait
  rw [addField_eq]
  refine Ensures.bind_of_ok hstep ?_
  unfold addLinks
  cases hkind : Schema.kindOf s.reference s.type with
  | error flaw =>
      have hsurvey : Schema.survey d c₁.known label s = .error (.invalidSchema label flaw) := by
        rw [Schema.survey, hkind]
      exact Ensures.of_throw ⟨.refl _ _, .stop hsurvey⟩
  | ok kind =>
      cases kind with
      | reference target => exact hwait.reference hroot hfuel hkind
      | array =>
          cases hi : s.items with
          | none =>
              have hsurvey : Schema.survey d c₁.known label s =
                  .error (.invalidSchema label .arrayWithoutItems) := by
                rw [Schema.survey, hkind, hi]
              exact Ensures.of_throw ⟨.refl _ _, .stop hsurvey⟩
          | some items =>
              have hsurvey : Schema.survey d c₁.known label s =
                  .ok (c₁.known, [(label, items)]) := by
                rw [Schema.survey, hkind, hi]
              -- the items ask for the node of the array once more, and find it without links
              have hagain : growing (·.ensureChild parent label) c₁ = .ok k c₁ := by
                rw [growing, Graph.ensureChild_of_some hchild]
              have hmeaning := hwait.meaning.trans (Schema.content_of_array hkind hi)
              refine (hitems items hi hagain hchild hfuel
                { hwait with meaning := hmeaning }).imp ?_ ?_
              · exact fun _ c' hok => ⟨hok.built, .step hsurvey hok.survey⟩
              · exact fun why c' hfailed => ⟨hfailed.grown, .step hsurvey hfailed.survey⟩
      | object => exact hwait.object hfields hfuel hkind
      | any =>
          obtain ⟨c', m', hset, hbuilt, hknown⟩ :=
            hwait.anything (Schema.content_of_any hkind)
          have hsurvey : Schema.survey d c₁.known label s = .ok (c₁.known, []) := by
            rw [Schema.survey, hkind]
          refine Ensures.of_ok hset ⟨⟨m', hbuilt⟩, ?_⟩
          rw [hknown]
          exact .step hsurvey .done
      | primitive =>
          have hsurvey : Schema.survey d c₁.known label s = .ok (c₁.known, []) := by
            rw [Schema.survey, hkind]
          exact Ensures.of_ok rfl
            ⟨⟨m, hwait.primitive (Schema.content_of_primitive hkind)⟩, .step hsurvey .done⟩

theorem FieldsSpec.cons {name : String} {s : Schema} {rest : List (String × Schema)}
    (hs : FieldSpec d fuel root s)
    (hrest : FieldsSpec d fuel (fun n => addNamed root n rest) (Schema.namedFields rest))
    (hname : name ∉ rest.map Prod.fst) :
    FieldsSpec d fuel (fun n => addNamed root n ((name, s) :: rest))
      (Schema.namedFields ((name, s) :: rest)) := by
  have hhead : FieldsSpec d fuel (fun n => addField root n (.name name) s) [(.name name, s)] :=
    single hs (by simp)
  refine hhead.seq hrest ?_
  intro f₁ hf₁ f₂ hf₂ heq
  obtain ⟨⟨name', s'⟩, hmem, rfl⟩ := List.mem_map.mp hf₂
  rw [List.mem_singleton.mp hf₁] at heq
  rw [Segment.name.inj heq] at hname
  exact hname (List.mem_map_of_mem hmem)

/-- The properties and the additional fields make all fields of a schema. -/
theorem FieldsSpec.ofSchema {s : Schema}
    (hproperties : ∀ properties, s.properties = some properties →
      FieldsSpec d fuel (fun n => addNamed root n properties) (Schema.namedFields properties))
    (hadditional : ∀ schema, s.additional = some schema → FieldSpec d fuel root schema) :
    FieldsSpec d fuel
      (fun n => do addProperties root n s.properties; addAdditional root n s.additional)
      s.fields := by
  have hnamed : FieldsSpec d fuel (fun n => addProperties root n s.properties)
      (Schema.namedFields (s.properties.getD [])) := by
    cases hp : s.properties with
    | none => exact nil
    | some properties => exact hproperties properties hp
  have hothers : FieldsSpec d fuel (fun n => addAdditional root n s.additional)
      (s.additional.toList.map fun schema => (.wildcard, schema)) := by
    cases ha : s.additional with
    | none => exact nil
    | some schema => exact single (hadditional schema ha) (by simp)
  refine hnamed.seq hothers ?_
  intro f₁ hf₁ f₂ hf₂
  obtain ⟨_, _, rfl⟩ := List.mem_map.mp hf₁
  obtain ⟨_, _, rfl⟩ := List.mem_map.mp hf₂
  simp

mutual

/-- Every schema whose properties have distinct names gets what it asks for. -/
theorem fieldSpec (hroot : RootSpec d fuel root) :
    ∀ s : Schema, s.HasDistinctNames → FieldSpec d fuel root s
  | ⟨id, type, reference, properties, additional, items⟩, h => by
      rw [Schema.hasDistinctNames_iff] at h
      refine .of_kind hroot (.ofSchema ?_ ?_) ?_
      · intro properties' hp
        obtain ⟨hnodup, hbelow⟩ := h.1 properties' hp
        match properties, hp with
        | some properties', rfl => exact namedSpec hroot properties' hnodup hbelow
      · intro additional' ha
        have hbelow := h.2.1 additional' ha
        match additional, ha with
        | some additional', rfl => exact fieldSpec hroot additional' hbelow
      · intro items' hi
        have hbelow := h.2.2 items' hi
        match items, hi with
        | some items', rfl => exact fieldSpec hroot items' hbelow

theorem namedSpec (hroot : RootSpec d fuel root) :
    ∀ properties : List (String × Schema), (properties.map Prod.fst).Nodup →
      Schema.HaveDistinctNames properties →
      FieldsSpec d fuel (fun n => addNamed root n properties) (Schema.namedFields properties)
  | [], _, _ => .nil
  | (name, s) :: rest, hnodup, hbelow => by
      obtain ⟨hname, hrest⟩ := List.nodup_cons.mp hnodup
      exact .cons (fieldSpec hroot s hbelow.1) (namedSpec hroot rest hrest hbelow.2) hname

end

theorem fieldsSpec (hroot : RootSpec d fuel root) {s : Schema} (h : s.HasDistinctNames) :
    FieldsSpec d fuel
      (fun n => do addProperties root n s.properties; addAdditional root n s.additional)
      s.fields := by
  obtain ⟨hproperties, hadditional, _⟩ := Schema.hasDistinctNames_iff.mp h
  refine .ofSchema (fun properties hp => ?_) fun schema ha => ?_
  · exact namedSpec hroot properties (hproperties properties hp).1 (hproperties properties hp).2
  · exact fieldSpec hroot schema (hadditional schema ha)

/-! ## Roots -/

/-- The fields of a named schema, once its root is there. -/
def enter (d : Dictionary Schema) (fuel : Nat) (name : String) (s : Schema) : Compiler NodeId := do
  let n ← entering name
  addProperties (Compiler.root d fuel) n s.properties
  addAdditional (Compiler.root d fuel) n s.additional
  return n

theorem root_eq (fuel : Nat) (name : String) (c : Compilation) :
    Compiler.root d fuel name c =
      match c.roots.get? name with
      | some r => .ok r c
      | none =>
        match d.get? name, fuel with
        | some s, fuel + 1 => enter d fuel name s c
        | _, _ => .error (.unknownSchema name) c := by
  have hget : (get : Compiler Compilation) c = .ok c c := rfl
  rw [Compiler.root.eq_def]
  dsimp only
  rw [run_bind hget]
  cases c.roots.get? name with
  | some r => rfl
  | none =>
      cases d.get? name with
      | none => rfl
      | some s => cases fuel <;> rfl

/-- A name that has a root leads to nothing new. -/
theorem surveys_of_root {name : String} {c : Compilation} {r : NodeId}
    (h : c.roots.get? name = some r) :
    Schema.Surveys d c.known [(.wildcard, Schema.naming name)] (.ok c.known) :=
  .step (Schema.survey_of_known rfl (Compilation.mem_known.mpr ⟨r, h⟩)) .done

theorem surveys_of_missing {name : String} {c : Compilation} (h : c.roots.get? name = none)
    (hs : d.get? name = none) :
    Schema.Surveys d c.known [(.wildcard, Schema.naming name)] (.error (.unknownSchema name)) :=
  .stop (Schema.survey_of_missing rfl (by simp [Compilation.mem_known, h]) hs)

/-- A name that is entered gets a root, on which work begins. -/
theorem entering_built {name : String} {unfinished : List NodeId} {c : Compilation} {m : Meaning}
    (hb : Building d unfinished c m) (hnew : c.roots.get? name = none) :
    ∃ c₁ m₁, entering name c = .ok c.graph.size c₁ ∧
      Built d (c.graph.size :: unfinished) [] c m c₁ m₁ ∧
      c₁.roots.get? name = some c.graph.size ∧ c₁.graph.links c.graph.size = [] ∧
      c₁.known = insert name c.known := by
  let c₁ : Compilation :=
    ⟨c.graph.addRoot.1, c.roots.insert name c.graph.size, name :: c.entered⟩
  let m₁ : Meaning :=
    fun n => if n = c.graph.size then .fields (Schema.fieldsOf d name) else m n
  have hold : ∀ n, n < c.graph.size → m₁ n = m n := fun n hn => if_neg (Nat.ne_of_lt hn)
  have hmeaning : m₁ c.graph.size = .fields (Schema.fieldsOf d name) := if_pos rfl
  have hsize : c₁.graph.size = c.graph.size + 1 := Graph.size_addNode _ _
  have hlabel : c₁.graph.label c.graph.size = none := Graph.label_addNode_size none
  have hlinks : ∀ n, c₁.graph.links n = c.graph.links n := Graph.links_addNode none
  have hlt : c.graph.size < c₁.graph.size := hsize ▸ Nat.lt_succ_self _
  have hget : ∀ name', c₁.roots.get? name' =
      if name' = name then some c.graph.size else c.roots.get? name' :=
    fun name' => Dictionary.get?_insert _ _ _ _
  have hroot : ∀ name' r, c₁.roots.get? name' = some r →
      (name' = name ∧ r = c.graph.size) ∨ c.roots.get? name' = some r := by
    intro name' r hr
    rw [hget] at hr
    split at hr
    · rename_i heq
      exact Or.inl ⟨heq, (Option.some.inj hr).symm⟩
    · exact Or.inr hr
  have hgrown : Grown [] c c₁ := by
    refine ⟨Nat.le_of_lt hlt, ?_, ?_, ?_, ?_⟩
    · exact fun n hn => Graph.label_addNode_of_lt none hn
    · exact fun n _ _ => hlinks n
    · intro name' r hr
      have hne : name' ≠ name := by
        rintro rfl
        exact absurd (hnew.symm.trans hr) (by simp)
      rw [hget, if_neg hne, hr]
    · show (c.entered.foldl Dictionary.erase ((c.roots.insert name c.graph.size).erase name)) = _
      rw [Dictionary.erase_insert hnew]
  refine ⟨c₁, m₁, rfl, ⟨hgrown, hold, ⟨?_, ?_, ?_, ?_, hb.owned.addNode none⟩⟩, ?_, ?_, ?_⟩
  · intro n hn hnot
    rw [List.mem_cons, not_or] at hnot
    have hn' : n < c.graph.size :=
      Nat.lt_of_le_of_ne (Nat.le_of_lt_succ (Nat.lt_of_lt_of_eq hn hsize)) hnot.1
    exact (hb.finished n hn' hnot.2).grown hgrown hold hn' List.not_mem_nil
  · intro name' r hr
    rcases hroot name' r hr with ⟨rfl, rfl⟩ | hr
    · exact ⟨hlt, hlabel, hmeaning⟩
    · obtain ⟨hr, hlabel', hmeaning'⟩ := hb.root name' r hr
      exact ⟨Nat.lt_trans hr hlt, by rw [hgrown.label r hr, hlabel'],
        by rw [hold r hr, hmeaning']⟩
  · -- the new root is no root that was there
    intro name₁ name₂ r hr₁ hr₂
    rcases hroot name₁ r hr₁ with ⟨rfl, hr⟩ | hr₁
    · rcases hroot name₂ r hr₂ with ⟨rfl, _⟩ | hr₂
      · rfl
      · exact absurd hr (Nat.ne_of_lt (hb.root name₂ r hr₂).1)
    · rcases hroot name₂ r hr₂ with ⟨_, hr⟩ | hr₂
      · exact absurd hr (Nat.ne_of_lt (hb.root name₁ r hr₁).1)
      · exact hb.distinct name₁ name₂ r hr₁ hr₂
  · -- the only node that is new is the root of the name
    intro n hn hnone
    rcases Nat.lt_or_ge n c.graph.size with hlt' | hge
    · rw [hgrown.label n hlt'] at hnone
      obtain ⟨name', hname'⟩ := hb.named n hlt' hnone
      exact ⟨name', hgrown.roots name' n hname'⟩
    · have heq : n = c.graph.size := by omega
      exact ⟨name, by rw [hget, if_pos rfl, heq]⟩
  · rw [hget, if_pos rfl]
  · rw [hlinks, Graph.links_eq_nil_of_size_le (Nat.le_refl _)]
  · ext name'
    rw [Compilation.mem_known, Finset.mem_insert, Compilation.mem_known, hget]
    by_cases h : name' = name <;> simp [h]

section Unentered

variable {name : String} {s : Schema} {c c₁ : Compilation}

/-- A definition without a root is still to be entered. -/
theorem mem_unentered (hs : d.get? name = some s) (hnew : c.roots.get? name = none) :
    name ∈ d.keys.toFinset \ c.known := by
  rw [Finset.mem_sdiff, List.mem_toFinset, Dictionary.mem_keys_iff, Compilation.mem_known]
  exact ⟨⟨s, hs⟩, by simp [hnew]⟩

theorem unentered_pos (hs : d.get? name = some s) (hnew : c.roots.get? name = none) :
    0 < c.unentered d :=
  Finset.card_pos.mpr ⟨name, mem_unentered hs hnew⟩

/-- A definition that is entered is one less to enter. -/
theorem unentered_lt (hs : d.get? name = some s) (hnew : c.roots.get? name = none)
    (hknown : c₁.known = insert name c.known) : c₁.unentered d < c.unentered d := by
  rw [Compilation.unentered, hknown, Finset.sdiff_insert]
  exact Finset.card_erase_lt_of_mem (mem_unentered hs hnew)

end Unentered

/-- The root of a name that was entered is finished when its fields are there. -/
theorem enter_ensures {fuel : Nat} (hroot : RootSpec d fuel (Compiler.root d fuel)) {name : String}
    {s : Schema} (hs : d.get? name = some s) (hnames : s.HasDistinctNames)
    {unfinished : List NodeId} {c : Compilation} {m : Meaning} (hnew : c.roots.get? name = none)
    (hfuel : c.unentered d ≤ fuel + 1) (hb : Building d unfinished c m) :
    Ensures (enter d fuel name s) c
      (fun r c' => Succeeded d [(.wildcard, Schema.naming name)] unfinished [] c m c' ∧
        c'.roots.get? name = some r)
      (Failed d [(.wildcard, Schema.naming name)] [] c) := by
  have hfieldsOf : Schema.fieldsOf d name = s.fields := by rw [Schema.fieldsOf, hs]; rfl
  -- the root has its meaning from the start, so fields that refer to it can be finished first
  obtain ⟨c₁, m₁, hstep, hbuilt₁, hget₁, hlinks₁, hknown₁⟩ := entering_built hb hnew
  obtain ⟨hlt₁, _, hmeaning₁⟩ := hbuilt₁.building.root name _ hget₁
  have hlinks₁' : c₁.graph.links c.graph.size = Link.owning [] := hlinks₁
  have hfuel₁ : c₁.unentered d ≤ fuel := by
    have hless := unentered_lt hs hnew hknown₁
    omega
  have hsurvey : Schema.survey d c.known .wildcard (Schema.naming name) =
      .ok (c₁.known, s.fields) := by
    have hname : name ∉ c.known := by simp [Compilation.mem_known, hnew]
    rw [hknown₁]
    exact Schema.survey_of_unknown rfl hname hs
  have hrun :=
    fieldsSpec hroot hnames List.mem_cons_self hlt₁ hlinks₁' (by simp) hfuel₁ hbuilt₁.building
  refine Ensures.bind_of_ok hstep ?_
  rw [← bind_assoc]
  refine Ensures.bind (hrun.imp (fun _ _ hok => hok) fun why c' hfailed => ?_) ?_
  · exact ⟨hbuilt₁.grown.trans hfailed.grown (changed_of_new c _),
      .step hsurvey (hfailed.survey.append_error [])⟩
  · rintro ⟨⟩ c' ⟨⟨m', ks, hbuilt', hlinks', hks⟩, hsurvey'⟩
    have hmeaning' : m' c.graph.size = .fields s.fields := by
      rw [hbuilt'.meaning _ hlt₁, hmeaning₁, hfieldsOf]
    have hbuilt := hbuilt₁.trans hbuilt' (changed_of_new c _)
    refine Ensures.of_ok rfl ⟨⟨⟨m', hbuilt.grown, hbuilt.meaning,
      hbuilt.building.finish (.fields hmeaning' hlinks' hks)⟩, ?_⟩, ?_⟩
    · exact .step hsurvey (hsurvey'.append .done)
    · exact hbuilt'.grown.roots name _ hget₁

/-- **A root that can be had stands for its schema**, and all nodes that were made for it are
finished. If it cannot be had, the reason lies in the definitions. -/
theorem rootSpec (hd : Schema.DistinctNames d) (fuel : Nat) :
    RootSpec d fuel (Compiler.root d fuel) := by
  -- a root is compiled with the roots that one level less of fuel can reach
  induction fuel with
  | zero =>
      intro name unfinished c m hfuel hb
      rw [Ensures, root_eq]
      cases hget : c.roots.get? name with
      | some r => exact ⟨⟨⟨m, .refl hb⟩, surveys_of_root hget⟩, hget⟩
      | none =>
          cases hs : d.get? name with
          | none => exact ⟨.refl _ _, surveys_of_missing hget hs⟩
          | some s => exact absurd (unentered_pos hs hget) (Nat.not_lt_of_le hfuel)
  | succ fuel ih =>
      intro name unfinished c m hfuel hb
      rw [Ensures, root_eq]
      cases hget : c.roots.get? name with
      | some r => exact ⟨⟨⟨m, .refl hb⟩, surveys_of_root hget⟩, hget⟩
      | none =>
          cases hs : d.get? name with
          | none => exact ⟨.refl _ _, surveys_of_missing hget hs⟩
          | some s => exact enter_ensures ih hs (hd name s hs) hget hfuel hb

end Compiler

end FieldSelection

import FieldSelection.Proofs.Tree.Equality

/-!
# Comparing trees child by child

Two nodes are compared by going through the children of the first. Each child is compared with the
first child of the second that has its label, which means to go through its own children, and only
then the next one is looked at. `Compares` is this comparison. A pair is opened when it is met
first, and from then on taken to be the same. The opened pairs are handed on from one child to the
next.

It ends, since a pair that is opened is one of finitely many and is not opened again. And it gives
the answer of `Tree.same`, where all children of a pair are found their partners first and then wait
in one list: both open the same pairs, as long as no child is found to be without a partner.
-/

namespace FieldSelection

namespace Graph

variable {g h : Graph} {a b : NodeId} {mine theirs : List NodeId} {answer : Bool}
  {opened opened' opened₁ opened₂ rest : List (NodeId × NodeId)}

/-- The first of some nodes of `h` with the label of a node of `g`. -/
def partner? (g h : Graph) (theirs : List NodeId) (a : NodeId) : Option NodeId :=
  theirs.find? fun b => h.label b == g.label a

/-- Comparing some nodes with their partners, when these pairs were opened already, gives this
answer, and then these pairs were opened. -/
inductive Compares (g h : Graph) : List (NodeId × NodeId) → List NodeId → List NodeId → Bool →
    List (NodeId × NodeId) → Prop where
  /-- There are no nodes left to compare. -/
  | done {opened : List (NodeId × NodeId)} {theirs : List NodeId} :
      Compares g h opened [] theirs true opened
  /-- The next node has no partner. -/
  | missing {opened : List (NodeId × NodeId)} {a : NodeId} {mine theirs : List NodeId} :
      partner? g h theirs a = none → Compares g h opened (a :: mine) theirs false opened
  /-- It was compared with its partner before, or is being compared with it. -/
  | passed {opened opened' : List (NodeId × NodeId)} {a b : NodeId} {mine theirs : List NodeId}
      {answer : Bool} : partner? g h theirs a = some b → (a, b) ∈ opened →
      Compares g h opened mine theirs answer opened' →
      Compares g h opened (a :: mine) theirs answer opened'
  /-- It has more or fewer children than its partner. -/
  | counts {opened : List (NodeId × NodeId)} {a b : NodeId} {mine theirs : List NodeId} :
      partner? g h theirs a = some b → (a, b) ∉ opened →
      (g.children a).length ≠ (h.children b).length →
      Compares g h opened (a :: mine) theirs false ((a, b) :: opened)
  /-- Its children differ from those of its partner. -/
  | differ {opened opened' : List (NodeId × NodeId)} {a b : NodeId} {mine theirs : List NodeId} :
      partner? g h theirs a = some b → (a, b) ∉ opened →
      (g.children a).length = (h.children b).length →
      Compares g h ((a, b) :: opened) (g.children a) (h.children b) false opened' →
      Compares g h opened (a :: mine) theirs false opened'
  /-- They do not, and the comparison goes on with the next node. -/
  | next {opened opened₁ opened₂ : List (NodeId × NodeId)} {a b : NodeId}
      {mine theirs : List NodeId} {answer : Bool} :
      partner? g h theirs a = some b → (a, b) ∉ opened →
      (g.children a).length = (h.children b).length →
      Compares g h ((a, b) :: opened) (g.children a) (h.children b) true opened₁ →
      Compares g h opened₁ mine theirs answer opened₂ →
      Compares g h opened (a :: mine) theirs answer opened₂

theorem mem_of_partner? (hb : partner? g h theirs a = some b) : b ∈ theirs :=
  List.mem_of_find?_eq_some hb

theorem label_of_partner? (hb : partner? g h theirs a = some b) : g.label a = h.label b := by
  have hlabel := List.find?_some hb
  simpa using Eq.symm (by simpa using hlabel)

/-! ## The comparison ends -/

/-- Whether all children are nodes. -/
def HasChildrenInside (g : Graph) : Prop := ∀ n, ∀ c ∈ g.children n, c < g.size

theorem IsLabelled.hasChildrenInside (hg : g.IsLabelled) : g.HasChildrenInside := by
  intro n c hc
  obtain ⟨m, _, hm⟩ := mem_children_iff_owned.mp hc
  exact hg.lt_size hm

/-- **The comparison ends, and opens no pair twice.** What it needs goes down with each pair that
is opened, so there is enough for the children of a pair, and for what comes after them. -/
theorem exists_compares (hg : g.HasChildrenInside) (hh : h.HasChildrenInside) (depth : Nat) :
    ∀ {opened : List (NodeId × NodeId)} {mine theirs : List NodeId},
      Comparing g h depth opened → (∀ a ∈ mine, a < g.size) → (∀ b ∈ theirs, b < h.size) →
      ∃ answer opened', Compares g h opened mine theirs answer opened' ∧
        ∃ fewer, fewer ≤ depth ∧ Comparing g h fewer opened' := by
  induction depth using Nat.strongRecOn with
  | ind depth ih =>
      intro opened mine theirs hcmp hmine htheirs
      induction mine with
      | nil => exact ⟨true, opened, .done, depth, Nat.le_refl _, hcmp⟩
      | cons a mine ihmine =>
          have hrest := fun a' ha' => hmine a' (List.mem_cons_of_mem a ha')
          cases hb : partner? g h theirs a with
          | none => exact ⟨false, opened, .missing hb, depth, Nat.le_refl _, hcmp⟩
          | some b =>
              by_cases hmem : (a, b) ∈ opened
              · obtain ⟨answer, opened', hwalk, hleft⟩ := ihmine hrest
                exact ⟨answer, opened', .passed hb hmem hwalk, hleft⟩
              · obtain ⟨left, rfl⟩ := Nat.exists_eq_add_one_of_ne_zero (Nat.ne_of_gt hcmp.depth_pos)
                have hopen : Comparing g h left ((a, b) :: opened) :=
                  hcmp.push hmem (hmine a List.mem_cons_self) (htheirs b (mem_of_partner? hb))
                by_cases hlength : (g.children a).length = (h.children b).length
                · obtain ⟨answer, opened₁, hbelow, fewer, hfewer, hcmp₁⟩ :=
                    ih left (Nat.lt_succ_self left) hopen (hg a) (hh b)
                  cases answer with
                  | false =>
                      exact ⟨false, opened₁, .differ hb hmem hlength hbelow, fewer, by omega, hcmp₁⟩
                  | true =>
                      obtain ⟨answer, opened₂, hwalk, least, hleast, hcmp₂⟩ :=
                        ih fewer (by omega) hcmp₁ hrest htheirs
                      exact ⟨answer, opened₂, .next hb hmem hlength hbelow hwalk, least, by omega,
                        hcmp₂⟩
                · exact ⟨false, (a, b) :: opened, .counts hb hmem hlength, left, by omega, hopen⟩

/-! ## Pairs that wait in a list -/

theorem sameBelow?_of_mem {budget : Nat} (hmem : (a, b) ∈ opened) :
    sameBelow? g h budget opened ((a, b) :: rest) = sameBelow? g h budget opened rest := by
  have hdrop : ((a, b) :: rest).dropWhile (opened.contains ·) =
      rest.dropWhile (opened.contains ·) :=
    List.dropWhile_cons_of_pos (by simpa using hmem)
  rw [sameBelow?, sameBelow?, hdrop]

theorem sameBelow?_of_not_mem {budget : Nat} (hmem : (a, b) ∉ opened)
    (hlabel : g.label a = h.label b) :
    sameBelow? g h (budget + 1) opened ((a, b) :: rest) =
      match pairChildren? g h a b with
      | none => some false
      | some pairs => sameBelow? g h budget ((a, b) :: opened) (pairs ++ rest) := by
  have hdrop : ((a, b) :: rest).dropWhile (opened.contains ·) = (a, b) :: rest :=
    List.dropWhile_cons_of_neg (by simpa using hmem)
  rw [sameBelow?, hdrop]
  exact if_pos (by simpa using hlabel)

/-- Nodes with their partners. -/
def partners? (g h : Graph) (mine theirs : List NodeId) : Option (List (NodeId × NodeId)) :=
  mine.mapM fun a => (partner? g h theirs a).map fun b => (a, b)

theorem pairChildren?_eq (hlength : (g.children a).length = (h.children b).length) :
    pairChildren? g h a b = partners? g h (g.children a) (h.children b) :=
  if_pos (by simpa using hlength)

theorem partners?_of_none (hb : partner? g h theirs a = none) :
    partners? g h (a :: mine) theirs = none := by
  rw [partners?, List.mapM_cons, hb]
  rfl

theorem partners?_of_some (hb : partner? g h theirs a = some b) :
    partners? g h (a :: mine) theirs = (partners? g h mine theirs).map ((a, b) :: ·) := by
  rw [partners?, List.mapM_cons, hb, partners?]
  cases mine.mapM fun a => (partner? g h theirs a).map fun b => (a, b) <;> rfl

theorem exists_of_partners?_cons {pairs : List (NodeId × NodeId)}
    (hb : partner? g h theirs a = some b) (hpairs : partners? g h (a :: mine) theirs = some pairs) :
    ∃ more, partners? g h mine theirs = some more ∧ pairs = (a, b) :: more := by
  rw [partners?_of_some hb] at hpairs
  obtain ⟨more, hmore, heq⟩ := Option.map_eq_some_iff.mp hpairs
  exact ⟨more, hmore, heq.symm⟩

/-- A comparison that finds the same has found a partner for each node. -/
theorem Compares.exists_partners (hwalk : Compares g h opened mine theirs true opened') :
    ∃ pairs, partners? g h mine theirs = some pairs := by
  generalize htrue : true = answer at hwalk
  induction hwalk with
  | done => exact ⟨[], rfl⟩
  | missing | counts | differ => exact absurd htrue (by simp)
  | @passed _ _ a b _ _ _ hb _ _ ih | @next _ _ _ a b _ _ _ hb _ _ _ _ _ ih =>
      obtain ⟨pairs, hpairs⟩ := ih htrue
      exact ⟨(a, b) :: pairs, by rw [partners?_of_some hb, hpairs]; rfl⟩

/-- **The pairs that wait are opened in turn.** If nodes are the same as their partners, what waits
behind them is compared next, and there is that much less budget as pairs were opened; if they are
not, that is the answer. -/
theorem Compares.sameBelow? (hwalk : Compares g h opened mine theirs answer opened') :
    ∃ count, opened'.length = opened.length + count ∧
      ∀ pairs, partners? g h mine theirs = some pairs → ∀ budget rest,
        Graph.sameBelow? g h (budget + count) opened (pairs ++ rest) =
          if answer then Graph.sameBelow? g h budget opened' rest else some false := by
  induction hwalk with
  | done =>
      refine ⟨0, rfl, fun pairs hpairs budget rest => ?_⟩
      cases hpairs
      rfl
  | missing hb =>
      refine ⟨0, rfl, fun pairs hpairs => ?_⟩
      rw [partners?_of_none hb] at hpairs
      exact absurd hpairs (by simp)
  | passed hb hmem _ ih =>
      obtain ⟨count, hcount, hsame⟩ := ih
      refine ⟨count, hcount, fun pairs hpairs budget rest => ?_⟩
      obtain ⟨more, hmore, rfl⟩ := exists_of_partners?_cons hb hpairs
      rw [List.cons_append, sameBelow?_of_mem hmem, hsame more hmore]
  | @counts opened a b mine theirs hb hmem hlength =>
      refine ⟨1, rfl, fun pairs hpairs budget rest => ?_⟩
      obtain ⟨more, hmore, rfl⟩ := exists_of_partners?_cons hb hpairs
      have hnone : pairChildren? g h a b = none := if_neg (by simpa using hlength)
      rw [List.cons_append, sameBelow?_of_not_mem hmem (label_of_partner? hb), hnone]
      rfl
  | @differ opened opened' a b mine theirs hb hmem hlength _ ih =>
      obtain ⟨count, hcount, hsame⟩ := ih
      refine ⟨count + 1, ?_, fun pairs hpairs budget rest => ?_⟩
      · rw [hcount, List.length_cons]
        omega
      · obtain ⟨more, hmore, rfl⟩ := exists_of_partners?_cons hb hpairs
        rw [List.cons_append, ← Nat.add_assoc, sameBelow?_of_not_mem hmem (label_of_partner? hb),
          pairChildren?_eq hlength]
        -- one of the children may be without a partner
        cases hbelow : partners? g h (g.children a) (h.children b) with
        | none => rfl
        | some below => exact hsame below hbelow budget (more ++ rest)
  | @next opened opened₁ opened₂ a b mine theirs answer hb hmem hlength hchildren _ ihchildren ih =>
      obtain ⟨count₁, hcount₁, hsame₁⟩ := ihchildren
      obtain ⟨count₂, hcount₂, hsame₂⟩ := ih
      refine ⟨count₂ + count₁ + 1, ?_, fun pairs hpairs budget rest => ?_⟩
      · rw [hcount₂, hcount₁, List.length_cons]
        omega
      · obtain ⟨more, hmore, rfl⟩ := exists_of_partners?_cons hb hpairs
        obtain ⟨below, hbelow⟩ := hchildren.exists_partners
        rw [List.cons_append, ← Nat.add_assoc, ← Nat.add_assoc,
          sameBelow?_of_not_mem hmem (label_of_partner? hb), pairChildren?_eq hlength, hbelow]
        dsimp only
        rw [hsame₁ below hbelow, if_pos rfl, hsame₂ more hmore]

end Graph

/-! ## Trees -/

/-- **What is found child by child is whether the trees are the same.** -/
theorem Tree.same_eq_of_compares {t u : Tree} {answer : Bool} {opened : List (NodeId × NodeId)}
    {depth : Nat} (hwalk : Graph.Compares t.graph u.graph [] [t.root] [u.root] answer opened)
    (hcmp : Graph.Comparing t.graph u.graph depth opened) : t.same u = answer := by
  by_cases hlabel : t.graph.label t.root = u.graph.label u.root
  · have hpartners : Graph.partners? t.graph u.graph [t.root] [u.root] =
        some [(t.root, u.root)] := by
      rw [Graph.partners?_of_some (b := u.root)]
      · rfl
      · rw [Graph.partner?, List.find?_cons_of_pos (by simp [hlabel])]
    obtain ⟨count, hcount, hsame⟩ := hwalk.sameBelow?
    have hle := length_le_of_nodup_pairs hcmp.nodup hcmp.inside
    have hcount : opened.length = count := by simpa using hcount
    rw [hcount] at hle
    obtain ⟨budget, hbudget⟩ := Nat.exists_eq_add_of_le' hle
    have hsearch := hsame _ hpartners budget []
    rw [← hbudget] at hsearch
    have hsearch : Graph.sameBelow? t.graph u.graph (t.size * u.size) [] [(t.root, u.root)] =
        some answer := by
      refine hsearch.trans ?_
      cases answer
      · rfl
      · rw [if_pos rfl, Graph.sameBelow?]
        rfl
    rw [Tree.same, hsearch]
    rfl
  · have hnone : Graph.partner? t.graph u.graph [u.root] t.root = none := by
      rw [Graph.partner?, List.find?_cons_of_neg (by simpa using Ne.symm hlabel)]
      rfl
    have hfalse : answer = false := by
      cases hwalk with
      | missing => rfl
      | counts => rfl
      | differ => rfl
      | passed hb => exact absurd (hnone.symm.trans hb) (by simp)
      | next hb => exact absurd (hnone.symm.trans hb) (by simp)
    rw [Tree.same, Graph.sameBelow?, hfalse]
    simp [hlabel]

end FieldSelection

import Mathlib.Data.List.Forall2
import Mathlib.Data.List.Nodup
import BlockForm.Code.Verifier
import BlockForm.Proofs.Program

/-!
# BlockForm.Proofs.Rules — the verifier decides its rules

The rules are stated on positions: the placed blocks in layout order, and the sequence of instructions that these make
when they are put one after another (`Function.KeepsRules`).  The verifier walks through the blocks once, with a list of
the values it has seen computed.

`Function.Breaks f p violation` says that a rule is broken at the place `p`, and how that is reported.  The violations
that the verifier lists are those of the places at which a rule is broken, each place being there once
(`Function.Reports`); so there are none exactly if all rules are kept.  Nothing is asked of the functions: handles may
lead nowhere, labels may be shared, and instructions may be in several blocks or in none.
-/

namespace BlockForm

open Action

/-! ## The rules -/

namespace Function

/-- The instructions of the placed blocks one after another, the return that ends a block being its last one. -/
def sequence (f : Function) : List Instruction := f.placedBlocks.flatMap f.instructionsWithReturn

/-- The position in the sequence at which the block with a number starts, and the one before it ends. -/
def startOf (f : Function) (block : Nat) : Nat := ((f.placedBlocks.take block).flatMap f.instructionsWithReturn).length

/-- One of the first `n` instructions has the value for its result. -/
def ComputedBefore (f : Function) (n : Nat) (v : ValueId) : Prop :=
  ∃ j i, j < n ∧ f.sequence[j]? = some i ∧ i.value = v

/-- The value can be read at a position of the sequence: it is a constant, a literal, an argument, or the result of an
instruction before that position. -/
inductive ReadableAt (f : Function) (n : Nat) (v : ValueId) : Prop where
  | constant {x : Value} {c : Constant} (hx : f.value? v = some x) (hk : x.kind = .constant c)
  | literal {x : Value} {id : GlobalId} {content : String} (hx : f.value? v = some x)
      (hk : x.kind = .literal id content)
  | argument {x : Value} {p : Nat} (hx : f.value? v = some x) (hk : x.kind = .argument p)
  | result {x : Value} {id : InstructionId} (hx : f.value? v = some x) (hk : x.kind = .result id)
      (h : f.ComputedBefore n v)

/-- The last placed block is the one that the end label names, and it returns. -/
def EndsInReturn (f : Function) : Prop :=
  ∃ x id, f.placedBlocks.getLast? = some x ∧ f.endLabel = some x.label ∧ x.exit = some (.give id)

/-- The rules for a definition. -/
structure KeepsRules (f : Function) : Prop where
  /-- Every block has an exit. -/
  exits : ∀ x ∈ f.placedBlocks, ∃ e, x.exit = some e
  /-- Every target is the label of a placed block. -/
  targets : ∀ x ∈ f.placedBlocks, ∀ e ∈ x.exit, ∀ t ∈ e.targets, ∃ y ∈ f.placedBlocks, y.label = t
  ending : f.EndsInReturn
  /-- Every operand of an instruction can be read where the instruction stands. -/
  operands : ∀ n i, f.sequence[n]? = some i → ∀ v ∈ i.operation.operands, f.ReadableAt n v
  /-- Every condition can be read at the end of its block. -/
  conditions : ∀ b x, f.placedBlocks[b]? = some x → ∀ e ∈ x.exit, ∀ c ∈ e.conditions, f.ReadableAt (f.startOf (b + 1)) c

end Function

/-- A place at which a rule can be broken.  Blocks are numbered in layout order, instructions along the sequence, and
operands, targets and conditions where they are listed. -/
inductive Place where
  | exit (block : Nat)
  | target (block index : Nat)
  | ending
  | operand (position index : Nat)
  | condition (block index : Nat)

/-- The place belongs to a block from number `b` on, or to an instruction from position `n` on. -/
def Place.From (b n : Nat) : Place → Prop
  | .exit c | .target c _ | .condition c _ => b ≤ c
  | .operand m _ => n ≤ m
  | .ending => False

namespace Function

/-- A rule is broken at a place, which is reported by the violation. -/
inductive Breaks (f : Function) : Place → Violation → Prop where
  | exit {b : Nat} {x : Block} (hx : f.placedBlocks[b]? = some x) (h : x.exit = none) :
      Breaks f (.exit b) (.unterminated f.name (f.valueText x.label))
  | target {b k : Nat} {x : Block} {e : Exit} {t : ValueId} (hx : f.placedBlocks[b]? = some x) (he : x.exit = some e)
      (ht : e.targets[k]? = some t) (h : ∀ y ∈ f.placedBlocks, y.label ≠ t) :
      Breaks f (.target b k) (.foreignTarget f.name (f.valueText x.label) (f.valueText t))
  | ending (h : ¬ f.EndsInReturn) : Breaks f .ending (.misplacedEnd f.name)
  | operand {n k : Nat} {i : Instruction} {v : ValueId} (hi : f.sequence[n]? = some i)
      (hv : i.operation.operands[k]? = some v) (h : ¬ f.ReadableAt n v) :
      Breaks f (.operand n k) (.undefinedOperand f.name (f.valueText v))
  | condition {b k : Nat} {x : Block} {e : Exit} {v : ValueId} (hx : f.placedBlocks[b]? = some x)
      (he : x.exit = some e) (hv : e.conditions[k]? = some v) (h : ¬ f.ReadableAt (f.startOf (b + 1)) v) :
      Breaks f (.condition b k) (.undefinedOperand f.name (f.valueText v))

/-- A definition keeps the rules exactly if it breaks none at any place. -/
theorem keepsRules_iff {f : Function} : f.KeepsRules ↔ ∀ p violation, ¬ f.Breaks p violation := by
  constructor
  · rintro h p violation hb
    cases hb with
    | exit hx hnone =>
      obtain ⟨e, he⟩ := h.exits _ (List.mem_of_getElem? hx)
      rw [hnone] at he
      cases he
    | target hx he ht hforeign =>
      obtain ⟨y, hy, hlabel⟩ := h.targets _ (List.mem_of_getElem? hx) _ he _ (List.mem_of_getElem? ht)
      exact hforeign y hy hlabel
    | ending hnot => exact hnot h.ending
    | operand hi hv hnot => exact hnot (h.operands _ _ hi _ (List.mem_of_getElem? hv))
    | condition hx he hv hnot => exact hnot (h.conditions _ _ hx _ he _ (List.mem_of_getElem? hv))
  · intro h
    constructor
    case exits =>
      intro x hx
      obtain ⟨b, hb⟩ := List.getElem?_of_mem hx
      cases he : x.exit with
      | some e => exact ⟨e, rfl⟩
      | none => exact absurd (.exit hb he) (h _ _)
    case targets =>
      intro x hx e he t ht
      obtain ⟨b, hb⟩ := List.getElem?_of_mem hx
      obtain ⟨k, hk⟩ := List.getElem?_of_mem ht
      by_contra hforeign
      exact h _ _ (.target hb he hk fun y hy hlabel => hforeign ⟨y, hy, hlabel⟩)
    case ending =>
      by_contra hnot
      exact h _ _ (.ending hnot)
    case operands =>
      intro n i hi v hv
      obtain ⟨k, hk⟩ := List.getElem?_of_mem hv
      by_contra hnot
      exact h _ _ (.operand hi hk hnot)
    case conditions =>
      intro b x hx e he c hc
      obtain ⟨k, hk⟩ := List.getElem?_of_mem hc
      by_contra hnot
      exact h _ _ (.condition hx he hk hnot)

end Function

/-! ## Reports -/

/-- The violations are those of the places in `within` at which something is broken, each place being there once. -/
def Reports {P : Type} (breaks : P → Violation → Prop) (within : P → Prop) (violations : List Violation) : Prop :=
  ∃ places : List P, places.Nodup ∧ (∀ p, p ∈ places ↔ within p ∧ ∃ violation, breaks p violation) ∧
    List.Forall₂ breaks places violations

namespace Reports

variable {P : Type} {breaks : P → Violation → Prop} {within within' : P → Prop} {vs ws : List Violation}

theorem congr (h : Reports breaks within vs) (heq : ∀ p, within p ↔ within' p) : Reports breaks within' vs := by
  obtain ⟨places, hnodup, hmem, hrel⟩ := h
  exact ⟨places, hnodup, fun p => by rw [hmem, heq], hrel⟩

theorem nil (h : ∀ p, within p → ∀ violation, ¬ breaks p violation) : Reports breaks within [] :=
  ⟨[], List.nodup_nil, fun p => by simpa using h p, .nil⟩

/-- Reports about places apart from one another. -/
theorem append (hv : Reports breaks within vs) (hw : Reports breaks within' ws)
    (happart : ∀ p, within p → ¬ within' p) : Reports breaks (fun p => within p ∨ within' p) (vs ++ ws) := by
  obtain ⟨ps, hps, hmem, hrel⟩ := hv
  obtain ⟨qs, hqs, hmem', hrel'⟩ := hw
  refine ⟨ps ++ qs, ?_, ?_, List.rel_append hrel hrel'⟩
  · refine List.Nodup.append hps hqs fun p hp hq => ?_
    exact happart p ((hmem p).1 hp).1 ((hmem' p).1 hq).1
  · intro p
    rw [List.mem_append, hmem, hmem', ← or_and_right]

/-- The same violations at places that are written in another way. -/
theorem map {Q : Type} {breaks' : Q → Violation → Prop} (place : P → Q) (h : Reports breaks within vs)
    (hinj : Function.Injective place) (hbreaks : ∀ p violation, breaks' (place p) violation ↔ breaks p violation) :
    Reports breaks' (fun q => ∃ p, within p ∧ place p = q) vs := by
  obtain ⟨places, hnodup, hmem, hrel⟩ := h
  refine ⟨places.map place, hnodup.map hinj, fun q => ?_, ?_⟩
  · rw [List.mem_map]
    constructor
    · rintro ⟨p, hp, rfl⟩
      obtain ⟨hwithin, violation, hb⟩ := (hmem p).1 hp
      exact ⟨⟨p, hwithin, rfl⟩, violation, (hbreaks p violation).2 hb⟩
    · rintro ⟨⟨p, hwithin, rfl⟩, violation, hb⟩
      exact ⟨p, (hmem p).2 ⟨hwithin, violation, (hbreaks p violation).1 hb⟩, rfl⟩
  · rw [List.forall₂_map_left_iff]
    exact hrel.imp fun p violation => (hbreaks p violation).2

/-- Nothing is reported exactly if nothing is broken. -/
theorem eq_nil_iff (h : Reports breaks within vs) : vs = [] ↔ ∀ p, within p → ∀ violation, ¬ breaks p violation := by
  obtain ⟨places, -, hmem, hrel⟩ := h
  constructor
  · rintro rfl p hwithin violation hb
    cases hrel
    exact absurd ((hmem p).2 ⟨hwithin, violation, hb⟩) (by simp)
  · intro hnone
    cases hrel with
    | nil => rfl
    | @cons p violation _ _ hb _ => exact absurd hb (hnone p ((hmem p).1 (List.mem_cons_self ..)).1 violation)

/-- The items of a list that fail a test, each at a place of its own. -/
theorem filter_map {α : Type} {xs : List α} {bad : α → Bool} {message : α → Violation} {place : Nat → P}
    (hinj : Function.Injective place)
    (hbreaks : ∀ k violation, breaks (place k) violation ↔
      ∃ x, xs[k]? = some x ∧ bad x = true ∧ violation = message x) :
    Reports breaks (fun p => ∃ k, p = place k) ((xs.filter bad).map message) := by
  have hviolations : (xs.filter bad).map message = (xs.zipIdx.filter fun q => bad q.1).map fun q => message q.1 := by
    have hxs : xs.filter bad = (xs.zipIdx.filter fun q => bad q.1).map Prod.fst := by
      conv_lhs => rw [← List.zipIdx_map_fst 0 xs]
      rw [List.filter_map]
      rfl
    rw [hxs, List.map_map]
    rfl
  have hmem : ∀ {q : α × Nat}, q ∈ xs.zipIdx.filter (fun q => bad q.1) ↔ xs[q.2]? = some q.1 ∧ bad q.1 = true := by
    intro q
    rw [List.mem_filter, List.mem_zipIdx_iff_getElem?]
  refine ⟨(xs.zipIdx.filter fun q => bad q.1).map fun q => place q.2, ?_, ?_, ?_⟩
  · have hpositions : ((xs.zipIdx.filter fun q => bad q.1).map Prod.snd).Nodup := by
      refine List.Nodup.sublist (List.filter_sublist.map _) ?_
      rw [List.zipIdx_map_snd]
      exact List.nodup_range'
    simpa [List.map_map, Function.comp_def] using hpositions.map hinj
  · intro p
    rw [List.mem_map]
    constructor
    · rintro ⟨q, hq, rfl⟩
      exact ⟨⟨q.2, rfl⟩, _, (hbreaks _ _).2 ⟨q.1, (hmem.1 hq).1, (hmem.1 hq).2, rfl⟩⟩
    · rintro ⟨⟨k, rfl⟩, violation, hb⟩
      obtain ⟨x, hx, hbad, -⟩ := (hbreaks _ _).1 hb
      exact ⟨(x, k), hmem.2 ⟨hx, hbad⟩, rfl⟩
  · rw [hviolations, List.forall₂_map_left_iff, List.forall₂_map_right_iff, List.forall₂_same]
    intro q hq
    exact (hbreaks _ _).2 ⟨q.1, (hmem.1 hq).1, (hmem.1 hq).2, rfl⟩

end Reports

/-! ## The walk through the blocks -/

namespace Function

variable {f : Function} {n b : Nat} {defined placed : List ValueId}

/-- The values that the verifier has seen are the results of the first `n` instructions. -/
def Seen (f : Function) (n : Nat) (defined : List ValueId) : Prop := ∀ v, v ∈ defined ↔ f.ComputedBefore n v

theorem seen_nil (f : Function) : f.Seen 0 [] := by
  intro v
  constructor
  · intro hv
    cases hv
  · rintro ⟨j, i, hj, -⟩
    omega

theorem Seen.step (h : f.Seen n defined) {i : Instruction} (hi : f.sequence[n]? = some i) :
    f.Seen (n + 1) (i.value :: defined) := by
  intro v
  rw [List.mem_cons, h v]
  constructor
  · rintro (rfl | ⟨j, i', hj, hi', hv⟩)
    · exact ⟨n, i, by omega, hi, rfl⟩
    · exact ⟨j, i', by omega, hi', hv⟩
  · rintro ⟨j, i', hj, hi', hv⟩
    by_cases hjn : j = n
    · subst hjn
      rw [hi] at hi'
      cases hi'
      exact Or.inl hv.symm
    · exact Or.inr ⟨j, i', by omega, hi', hv⟩

/-- What the verifier takes to be available can be read. -/
theorem Seen.isAvailable_iff (h : f.Seen n defined) (v : ValueId) :
    f.isAvailable defined v = true ↔ f.ReadableAt n v := by
  unfold isAvailable
  constructor
  · intro havailable
    cases hx : f.value? v with
    | none => simp [hx] at havailable
    | some x =>
      cases hk : x.kind with
      | constant c => exact .constant hx hk
      | literal id content => exact .literal hx hk
      | argument p => exact .argument hx hk
      | result id =>
        simp only [hx, Option.map_some, hk, List.contains_iff_mem] at havailable
        exact .result hx hk ((h v).1 havailable)
      | label b | nil => simp [hx, hk] at havailable
  · rintro (⟨hx, hk⟩ | ⟨hx, hk⟩ | ⟨hx, hk⟩ | ⟨hx, hk, hcomputed⟩)
    · simp [hx, hk]
    · simp [hx, hk]
    · simp [hx, hk]
    · simpa [hx, hk] using (h v).2 hcomputed

/-- The operands of one instruction, or the conditions of an exit, that cannot be read. -/
theorem Seen.reports_operands (h : f.Seen n defined) {operands : List ValueId} {place : Nat → Place}
    (hinj : Function.Injective place)
    (hbreaks : ∀ k violation, f.Breaks (place k) violation ↔ ∃ v, operands[k]? = some v ∧ ¬ f.ReadableAt n v ∧
      violation = .undefinedOperand f.name (f.valueText v)) :
    Reports f.Breaks (fun p => ∃ k, p = place k) (f.undefinedOperands defined operands) := by
  refine Reports.filter_map hinj fun k violation => ?_
  rw [hbreaks]
  refine exists_congr fun v => and_congr_right fun _ => and_congr_left fun _ => ?_
  rw [← h.isAvailable_iff, Bool.not_eq_true, Bool.not_eq_true']

/-- The instructions from one position of the sequence to another. -/
theorem Seen.reports_row {row rest : List Instruction} (h : f.Seen n defined) (hrow : f.sequence.drop n = row ++ rest) :
    Reports f.Breaks (fun p => ∃ m k, p = .operand m k ∧ n ≤ m ∧ m < n + row.length) (f.undefinedInRow defined row) ∧
      f.Seen (n + row.length) (definedAfter defined row) := by
  induction row generalizing n defined with
  | nil =>
    refine ⟨.nil ?_, h⟩
    rintro p ⟨m, k, rfl, hle, hlt⟩
    simp only [List.length_nil] at hlt
    omega
  | cons i row ih =>
    have hi : f.sequence[n]? = some i := by
      rw [← Nat.add_zero n, ← List.getElem?_drop, hrow]
      rfl
    have hrest : f.sequence.drop (n + 1) = row ++ rest := by
      rw [← List.drop_drop, hrow]
      rfl
    obtain ⟨hreports, hseen⟩ := ih (h.step hi) hrest
    have hlen : n + (i :: row).length = n + 1 + row.length := by
      rw [List.length_cons]
      omega
    rw [hlen]
    refine ⟨?_, hseen⟩
    have hfirst : Reports f.Breaks (fun p => ∃ k, p = .operand n k)
        (f.undefinedOperands defined i.operation.operands) := by
      refine h.reports_operands (fun j k hjk => by cases hjk; rfl) fun k violation => ?_
      constructor
      · rintro (_ | _ | _ | ⟨hi', hv, hnot⟩ | _)
        rw [hi] at hi'
        cases hi'
        exact ⟨_, hv, hnot, rfl⟩
      · rintro ⟨v, hv, hnot, rfl⟩
        exact .operand hi hv hnot
    refine (hfirst.append hreports ?_).congr ?_
    · rintro p ⟨k, rfl⟩ ⟨m, k', heq, hle, -⟩
      cases heq
      omega
    · intro p
      constructor
      · rintro (⟨k, rfl⟩ | ⟨m, k, rfl, hle, hlt⟩)
        · exact ⟨n, k, rfl, by omega, by omega⟩
        · exact ⟨m, k, rfl, by omega, hlt⟩
      · rintro ⟨m, k, rfl, hle, hlt⟩
        by_cases hm : m = n
        · exact Or.inl ⟨k, by rw [hm]⟩
        · exact Or.inr ⟨m, k, rfl, by omega, hlt⟩

/-- The exit of one block. -/
theorem reports_exit {x : Block} (hx : f.placedBlocks[b]? = some x) :
    Reports f.Breaks (fun p => p = .exit b ∨ ∃ k, p = .target b k)
      (f.exitViolations (f.placedBlocks.map Block.label) x) := by
  unfold exitViolations
  cases he : x.exit with
  | none =>
    refine ⟨[.exit b], List.nodup_singleton _, fun p => ?_, .cons (.exit hx he) .nil⟩
    rw [List.mem_singleton]
    constructor
    · rintro rfl
      exact ⟨Or.inl rfl, _, .exit hx he⟩
    · rintro ⟨rfl | ⟨k, rfl⟩, violation, hbreaks⟩
      · rfl
      · cases hbreaks with
        | target hx' he' =>
          rw [hx] at hx'
          cases hx'
          rw [he] at he'
          cases he'
  | some e =>
    have htargets : Reports f.Breaks (fun p => ∃ k, p = .target b k)
        ((e.targets.filter fun t => !(f.placedBlocks.map Block.label).contains t).map fun t =>
          .foreignTarget f.name (f.valueText x.label) (f.valueText t)) := by
      refine Reports.filter_map (fun j k hjk => by cases hjk; rfl) fun k violation => ?_
      constructor
      · rintro (_ | ⟨hx', he', ht, hforeign⟩ | _ | _ | _)
        rw [hx] at hx'
        cases hx'
        rw [he] at he'
        cases he'
        exact ⟨_, ht, by simpa using hforeign, rfl⟩
      · rintro ⟨t, ht, hforeign, rfl⟩
        exact .target hx he ht (by simpa using hforeign)
    have hexit : Reports f.Breaks (fun p => p = .exit b) [] := by
      refine .nil ?_
      rintro p rfl violation (⟨hx', hnone⟩ | _ | _ | _ | _)
      rw [hx] at hx'
      cases hx'
      rw [he] at hnone
      cases hnone
    refine hexit.append htargets ?_
    rintro p rfl ⟨k, heq⟩
    cases heq

theorem sequence_drop_startOf (f : Function) (b : Nat) :
    f.sequence.drop (f.startOf b) = (f.placedBlocks.drop b).flatMap f.instructionsWithReturn := by
  have hsplit : f.sequence = (f.placedBlocks.take b).flatMap f.instructionsWithReturn ++
      (f.placedBlocks.drop b).flatMap f.instructionsWithReturn := by
    rw [sequence, ← List.flatMap_append, List.take_append_drop]
  rw [hsplit, startOf, List.drop_left]

theorem startOf_succ {x : Block} (hx : f.placedBlocks[b]? = some x) :
    f.startOf (b + 1) = f.startOf b + (f.instructionsWithReturn x).length := by
  rw [startOf, startOf, List.take_add_one, hx, List.flatMap_append, List.length_append]
  simp

/-- **The violations of the blocks from number `b` on** are those of the places there. -/
theorem Seen.reports_blocks {bs : List Block} (hbs : f.placedBlocks.drop b = bs) (h : f.Seen (f.startOf b) defined) :
    Reports f.Breaks (Place.From b (f.startOf b))
      (f.blockViolations (f.placedBlocks.map Block.label) defined bs) := by
  induction bs generalizing b defined with
  | nil =>
    have hlen : f.placedBlocks.length ≤ b := List.drop_eq_nil_iff.1 hbs
    have hnone : ∀ {c x}, b ≤ c → f.placedBlocks[c]? ≠ some x := by
      intro c x hle hx
      have := (List.getElem?_eq_some_iff.1 hx).1
      omega
    have hend : f.sequence.length ≤ f.startOf b := by
      have hdrop := f.sequence_drop_startOf b
      rw [hbs] at hdrop
      exact List.drop_eq_nil_iff.1 hdrop
    refine .nil fun p hp violation hbreaks => ?_
    cases hbreaks with
    | exit hx => exact hnone hp hx
    | target hx => exact hnone hp hx
    | condition hx => exact hnone hp hx
    | ending => exact hp
    | operand hi =>
      have := (List.getElem?_eq_some_iff.1 hi).1
      have hle : f.startOf b ≤ _ := hp
      omega
  | cons x bs ih =>
    have hx : f.placedBlocks[b]? = some x := by
      rw [← Nat.add_zero b, ← List.getElem?_drop, hbs]
      rfl
    have hrest : f.placedBlocks.drop (b + 1) = bs := by
      rw [← List.drop_drop, hbs]
      rfl
    have hrow : f.sequence.drop (f.startOf b) =
        f.instructionsWithReturn x ++ bs.flatMap f.instructionsWithReturn := by
      rw [sequence_drop_startOf, hbs, List.flatMap_cons]
    obtain ⟨hinstructions, hseen⟩ := h.reports_row hrow
    rw [← startOf_succ hx] at hinstructions hseen
    have hconditions : Reports f.Breaks (fun p => ∃ k, p = .condition b k)
        (f.undefinedOperands (definedAfter defined (f.instructionsWithReturn x)) (x.exit.elim [] Exit.conditions)) := by
      refine hseen.reports_operands (fun j k hjk => by cases hjk; rfl) fun k violation => ?_
      constructor
      · rintro (_ | _ | _ | _ | ⟨hx', he, hv, hnot⟩)
        rw [hx] at hx'
        cases hx'
        exact ⟨_, by simpa [he] using hv, hnot, rfl⟩
      · rintro ⟨v, hv, hnot, rfl⟩
        cases he : x.exit with
        | none => simp [he] at hv
        | some e => exact .condition hx he (by simpa [he] using hv) hnot
    have hlater := ih hrest hseen
    have hhere := (hinstructions.append hconditions ?_).append (reports_exit hx) ?_
    · refine (hhere.append hlater ?_).congr fun p => ?_
      · rintro p ((⟨m, k, rfl, -, hlt⟩ | ⟨k, rfl⟩) | rfl | ⟨k, rfl⟩) hfrom
        · have hle : f.startOf (b + 1) ≤ m := hfrom
          omega
        all_goals exact Nat.not_succ_le_self b hfrom
      · have hstart := startOf_succ hx
        cases p with
        | exit c | target c k | condition c k =>
          simp only [Place.From, Place.exit.injEq, Place.target.injEq, Place.condition.injEq, reduceCtorEq, false_and,
            exists_const, exists_and_left, exists_eq', and_true, false_or, or_false]
          omega
        | operand m k =>
          simp only [Place.From, Place.operand.injEq, reduceCtorEq, exists_const, or_false]
          constructor
          · rintro (⟨_, _, ⟨rfl, -⟩, hle, -⟩ | hle)
            · exact hle
            · omega
          · intro hle
            by_cases hlt : m < f.startOf (b + 1)
            · exact Or.inl ⟨m, k, ⟨rfl, rfl⟩, hle, hlt⟩
            · exact Or.inr (by omega)
        | ending => simp [Place.From]
    · rintro p ⟨m, k, rfl, -⟩ ⟨k', heq⟩
      cases heq
    · rintro p (⟨m, k, rfl, -⟩ | ⟨k, rfl⟩) (heq | ⟨k', heq⟩) <;> cases heq

theorem endsWithReturn_iff : f.endsWithReturn = true ↔ f.EndsInReturn := by
  unfold endsWithReturn EndsInReturn
  cases hx : f.placedBlocks.getLast? with
  | none => simp
  | some x =>
    cases hl : f.endLabel with
    | none => simp
    | some label =>
      cases he : x.exit with
      | none => simp [he]
      | some e => cases e <;> simp [he, eq_comm (a := x.label)]

/-- **The violations of a definition** are those of the places at which it breaks a rule. -/
theorem reports_violations (f : Function) : Reports f.Breaks (fun _ => True) f.violations := by
  have hblocks : Reports f.Breaks (Place.From 0 0)
      (f.blockViolations (f.placedBlocks.map Block.label) [] f.placedBlocks) :=
    Seen.reports_blocks (b := 0) rfl f.seen_nil
  have hending : Reports f.Breaks (fun p => p = .ending) (if f.endsWithReturn then [] else [.misplacedEnd f.name]) := by
    by_cases hends : f.endsWithReturn = true
    · rw [if_pos hends]
      refine .nil ?_
      rintro p rfl violation (_ | _ | hnot | _ | _)
      exact hnot (endsWithReturn_iff.1 hends)
    · have hnot : ¬ f.EndsInReturn := fun h => hends (endsWithReturn_iff.2 h)
      rw [if_neg hends]
      refine ⟨[.ending], List.nodup_singleton _, fun p => ?_, .cons (.ending hnot) .nil⟩
      rw [List.mem_singleton]
      constructor
      · rintro rfl
        exact ⟨rfl, _, .ending hnot⟩
      · exact And.left
  refine (hblocks.append hending ?_).congr fun p => ?_
  · rintro p hfrom rfl
    exact hfrom
  · cases p <;> simp [Place.From]

end Function

/-! ## Units -/

namespace CompilationUnit

variable {u : CompilationUnit}

/-- The function with a number in the unit is a definition that breaks a rule at a place. -/
def Breaks (u : CompilationUnit) (p : Nat × Place) (violation : Violation) : Prop :=
  ∃ f, u.functions.values[p.1]? = some f ∧ f.isDeclaration = false ∧ f.Breaks p.2 violation

/-- The violations of the functions from number `n` on. -/
theorem reports_functions {fs : List Function} : ∀ {n : Nat}, u.functions.values.drop n = fs →
    Reports u.Breaks (fun p => n ≤ p.1) ((fs.filter fun f => !f.isDeclaration).flatMap Function.violations) := by
  induction fs with
  | nil =>
    intro n hfs
    refine .nil ?_
    rintro p hle violation ⟨f, hf, -⟩
    have hlen := List.drop_eq_nil_iff.1 hfs
    have hlt := (List.getElem?_eq_some_iff.1 hf).1
    omega
  | cons f fs ih =>
    intro n hfs
    have hf : u.functions.values[n]? = some f := by
      rw [← Nat.add_zero n, ← List.getElem?_drop, hfs]
      rfl
    have hrest : u.functions.values.drop (n + 1) = fs := by
      rw [← List.drop_drop, hfs]
      rfl
    have hfirst : Reports u.Breaks (fun p => p.1 = n) (if f.isDeclaration then [] else f.violations) := by
      cases hd : f.isDeclaration with
      | true =>
        rw [if_pos rfl]
        refine .nil ?_
        rintro p rfl violation ⟨g, hg, hdefined, -⟩
        rw [hf] at hg
        cases hg
        rw [hd] at hdefined
        cases hdefined
      | false =>
        rw [if_neg Bool.false_ne_true]
        refine (f.reports_violations.map (fun p => (n, p)) (fun p q hpq => by cases hpq; rfl) ?_).congr ?_
        · intro p violation
          constructor
          · rintro ⟨g, hg, -, hb⟩
            rw [hf] at hg
            cases hg
            exact hb
          · exact fun hb => ⟨f, hf, hd, hb⟩
        · rintro ⟨m, p⟩
          constructor
          · rintro ⟨q, -, heq⟩
            cases heq
            rfl
          · rintro rfl
            exact ⟨p, trivial, rfl⟩
    have hsplit : ((f :: fs).filter fun f => !f.isDeclaration).flatMap Function.violations =
        (if f.isDeclaration then [] else f.violations) ++
          (fs.filter fun f => !f.isDeclaration).flatMap Function.violations := by
      cases hd : f.isDeclaration <;> simp [hd]
    rw [hsplit]
    refine (hfirst.append (ih hrest) fun p hp hle => by omega).congr fun p => ?_
    omega

/-- **The verifier decides its rules.**  It lists no violation exactly if every definition of the unit keeps the rules.
And what it lists are the violations of the places at which a definition breaks a rule, each such place being there
once, whatever the functions of the unit are like. -/
theorem verify_decides (u : CompilationUnit) :
    ∃ found, Gives verify u found u ∧
      (found = [] ↔ ∀ f ∈ u.functions.values, f.isDeclaration = false → f.KeepsRules) ∧
      Reports u.Breaks (fun _ => True) found := by
  have hreports : Reports u.Breaks (fun _ => True) u.violations :=
    (reports_functions (n := 0) rfl).congr fun p => ⟨fun _ => trivial, fun _ => Nat.zero_le p.1⟩
  refine ⟨u.violations, verify_gives.2 ⟨rfl, rfl⟩, ?_, hreports⟩
  rw [hreports.eq_nil_iff]
  constructor
  · intro h f hf hd
    obtain ⟨n, hn⟩ := List.getElem?_of_mem hf
    exact Function.keepsRules_iff.2 fun p violation hb => h (n, p) trivial violation ⟨f, hn, hd, hb⟩
  · rintro h p - violation ⟨f, hf, hd, hb⟩
    exact Function.keepsRules_iff.1 (h f (List.mem_of_getElem? hf) hd) p.2 violation hb

end CompilationUnit

end BlockForm

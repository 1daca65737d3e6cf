import BlockForm.Span

/-!
# BlockForm.Proofs.Merging — what the merge of two spans covers

Merging picks one of two locations at each end, by line and column.  Locations that tie need not be the same: a span
that is given by byte offsets alone has all its locations at line and column zero.  A pick keeps its first argument on
a tie, so merging is associative, and by line and column it covers both spans, whatever they are.  It does not depend on
the order of the spans exactly if tied ends are the same location, and the bytes of both spans are covered in either
order exactly if offsets are ordered as lines and columns are (`Location.Agrees`), which no constructor sees to.
-/

namespace BlockForm

namespace Location

/-! ## The order of locations -/

theorem le_iff {p q : Location} : p.le q = true ↔ p.line < q.line ∨ (p.line = q.line ∧ p.column ≤ q.column) := by
  simp [le]

theorem le_total (p q : Location) : p.le q = true ∨ q.le p = true := by
  simp only [le_iff]
  omega

theorem le_trans {p q r : Location} (hpq : p.le q = true) (hqr : q.le r = true) : p.le r = true := by
  rw [le_iff] at *
  omega

/-- Locations that tie are at the same line and column. -/
theorem eq_of_tie {p q : Location} (hpq : p.le q = true) (hqp : q.le p = true) (ho : p.offset = q.offset) : p = q := by
  rw [le_iff] at hpq hqp
  obtain ⟨line, column, offset⟩ := p
  obtain ⟨line', column', offset'⟩ := q
  simp only at hpq hqp ho
  obtain rfl : line = line' := by omega
  obtain rfl : column = column' := by omega
  rw [ho]

/-- `p` stands no earlier than `q`. -/
def after (p q : Location) : Bool := q.le p

theorem after_total (p q : Location) : p.after q = true ∨ q.after p = true := le_total q p

theorem after_trans {p q r : Location} (hpq : p.after q = true) (hqr : q.after r = true) : p.after r = true :=
  le_trans hqr hpq

/-- The offsets are in the order of lines and columns. -/
def Agrees (p q : Location) : Prop := (p.le q = true → p.offset ≤ q.offset) ∧ (q.le p = true → q.offset ≤ p.offset)

/-! ## Picking one of two locations -/

/-- The location that comes first, the first argument on a tie. -/
def pick (before : Location → Location → Bool) (p q : Location) : Location := if before p q then p else q

section Pick

variable {before : Location → Location → Bool}

theorem pick_assoc (total : ∀ p q, before p q = true ∨ before q p = true)
    (trans : ∀ {p q r}, before p q = true → before q r = true → before p r = true) (p q r : Location) :
    pick before p (pick before q r) = pick before (pick before p q) r := by
  unfold pick
  by_cases hpq : before p q = true
  · by_cases hqr : before q r = true
    · rw [if_pos hqr, if_pos hpq, if_pos (trans hpq hqr)]
    · rw [if_neg hqr, if_pos hpq]
  · by_cases hqr : before q r = true
    · rw [if_pos hqr, if_neg hpq, if_pos hqr]
    · -- `r` comes before `q`, and so before `p` as well
      have hpr : ¬ before p r = true := fun h => hpq (trans h ((total r q).resolve_right hqr))
      rw [if_neg hqr, if_neg hpq, if_neg hpr, if_neg hqr]

/-- What is picked comes no later than either of the two. -/
theorem before_pick (total : ∀ p q, before p q = true ∨ before q p = true) (p q : Location) :
    before (pick before p q) p = true ∧ before (pick before p q) q = true := by
  unfold pick
  by_cases hpq : before p q = true
  · rw [if_pos hpq]
    exact ⟨(total p p).elim id id, hpq⟩
  · rw [if_neg hpq]
    exact ⟨(total q p).resolve_right hpq, (total q q).elim id id⟩

/-- The order of the arguments matters on a tie only. -/
theorem pick_comm_iff (total : ∀ p q, before p q = true ∨ before q p = true) (p q : Location) :
    pick before p q = pick before q p ↔ (before p q = true → before q p = true → p = q) := by
  unfold pick
  by_cases hpq : before p q = true
  · by_cases hqp : before q p = true
    · rw [if_pos hpq, if_pos hqp]
      exact ⟨fun h _ _ => h, fun h => h hpq hqp⟩
    · rw [if_pos hpq, if_neg hqp]
      exact ⟨fun _ _ h => absurd h hqp, fun _ => rfl⟩
  · have hqp := (total p q).resolve_left hpq
    rw [if_neg hpq, if_pos hqp]
    exact ⟨fun _ h => absurd h hpq, fun _ => rfl⟩

/-- A relation between what is picked, in either order, and both arguments is one that follows the order. -/
theorem forall_pick_iff (total : ∀ p q, before p q = true ∨ before q p = true) {R : Location → Location → Prop}
    (refl : ∀ p, R p p) (p q : Location) :
    (R (pick before p q) p ∧ R (pick before p q) q) ∧ R (pick before q p) p ∧ R (pick before q p) q ↔
      (before p q = true → R p q) ∧ (before q p = true → R q p) := by
  unfold pick
  by_cases hpq : before p q = true
  · by_cases hqp : before q p = true
    · simp [hpq, hqp, refl]
    · simp [hpq, hqp, refl]
  · have hqp := (total p q).resolve_left hpq
    simp [hpq, hqp, refl]

end Pick

end Location

namespace Span

open Location

/-- The bytes of the second span are among those of the first. -/
def CoversBytes (s t : Span) : Prop := s.start.offset ≤ t.start.offset ∧ t.stop.offset ≤ s.stop.offset

instance (s t : Span) : Decidable (s.CoversBytes t) := inferInstanceAs (Decidable (_ ∧ _))

/-- Ends that tie are the same location. -/
def TiesAgree (a b : Span) : Prop :=
  (a.start.le b.start = true → b.start.le a.start = true → a.start = b.start) ∧
    (b.stop.le a.stop = true → a.stop.le b.stop = true → a.stop = b.stop)

variable (a b c : Span)

theorem merge_eq_pick : a.merge b = ⟨pick le a.start b.start, pick after a.stop b.stop⟩ := rfl

theorem merge_assoc : a.merge (b.merge c) = (a.merge b).merge c := by
  simp only [merge_eq_pick]
  rw [pick_assoc le_total le_trans, pick_assoc after_total after_trans]

theorem merge_comm_iff : a.merge b = b.merge a ↔ a.TiesAgree b := by
  simp only [merge_eq_pick, Span.mk.injEq]
  rw [pick_comm_iff le_total, pick_comm_iff after_total]
  rfl

/-- A location within either span is within the merge. -/
theorem contains_merge {l : Location} (h : a.contains l = true ∨ b.contains l = true) :
    (a.merge b).contains l = true := by
  obtain ⟨hsa, hsb⟩ := before_pick le_total a.start b.start
  obtain ⟨hta, htb⟩ := before_pick after_total a.stop b.stop
  simp only [contains, merge_eq_pick, Bool.and_eq_true] at h ⊢
  rcases h with ⟨hs, ht⟩ | ⟨hs, ht⟩
  · exact ⟨le_trans hsa hs, le_trans ht hta⟩
  · exact ⟨le_trans hsb hs, le_trans ht htb⟩

/-- In either order the merge covers the bytes of both spans, exactly if offsets are ordered as the ends are. -/
theorem merge_coversBytes_iff :
    (((a.merge b).CoversBytes a ∧ (a.merge b).CoversBytes b) ∧ (b.merge a).CoversBytes a ∧ (b.merge a).CoversBytes b) ↔
      a.start.Agrees b.start ∧ a.stop.Agrees b.stop := by
  have hstart := forall_pick_iff le_total (R := fun p q => p.offset ≤ q.offset) (fun _ => Nat.le_refl _) a.start b.start
  have hstop := forall_pick_iff after_total (R := fun p q => q.offset ≤ p.offset) (fun _ => Nat.le_refl _) a.stop b.stop
  have hagrees : a.stop.Agrees b.stop ↔ (a.stop.after b.stop = true → b.stop.offset ≤ a.stop.offset) ∧
      (b.stop.after a.stop = true → a.stop.offset ≤ b.stop.offset) := and_comm
  rw [hagrees, Agrees, ← hstart, ← hstop]
  simp only [CoversBytes, merge_eq_pick]
  constructor
  · rintro ⟨⟨⟨s₁, t₁⟩, s₂, t₂⟩, ⟨s₃, t₃⟩, s₄, t₄⟩
    exact ⟨⟨⟨s₁, s₂⟩, s₃, s₄⟩, ⟨t₁, t₂⟩, t₃, t₄⟩
  · rintro ⟨⟨⟨s₁, s₂⟩, s₃, s₄⟩, ⟨t₁, t₂⟩, t₃, t₄⟩
    exact ⟨⟨⟨s₁, t₁⟩, s₂, t₂⟩, ⟨s₃, t₃⟩, s₄, t₄⟩

/-- **What merging spans does.**  It is associative and covers the locations of both spans.  It is commutative exactly
if ends that tie are the same, and covers the bytes of both spans in either order exactly if the offsets of both ends
are in the order of lines and columns; merging is then commutative as well. -/
theorem merge_laws :
    a.merge (b.merge c) = (a.merge b).merge c ∧
      (∀ l, a.contains l = true ∨ b.contains l = true → (a.merge b).contains l = true) ∧
      (a.merge b = b.merge a ↔ a.TiesAgree b) ∧
      ((((a.merge b).CoversBytes a ∧ (a.merge b).CoversBytes b) ∧
          (b.merge a).CoversBytes a ∧ (b.merge a).CoversBytes b) ↔
        a.start.Agrees b.start ∧ a.stop.Agrees b.stop) ∧
      (a.start.Agrees b.start ∧ a.stop.Agrees b.stop → a.merge b = b.merge a) := by
  refine ⟨merge_assoc a b c, fun l => contains_merge a b, merge_comm_iff a b, merge_coversBytes_iff a b, ?_⟩
  rintro ⟨hstart, hstop⟩
  refine (merge_comm_iff a b).2 ⟨fun hab hba => ?_, fun hba hab => ?_⟩
  · exact eq_of_tie hab hba (Nat.le_antisymm (hstart.1 hab) (hstart.2 hba))
  · exact eq_of_tie hab hba (Nat.le_antisymm (hstop.1 hab) (hstop.2 hba))

end Span

/-- Two spans given by their bytes tie at both ends: each merge is the span it starts with, and covers that one only. -/
theorem Sample.ranges_merge_apart :
    let a := Span.ofRange 0 5
    let b := Span.ofRange 10 20
    a.merge b ≠ b.merge a ∧ ¬ (a.merge b).CoversBytes b ∧ ¬ (b.merge a).CoversBytes a := by
  decide

end BlockForm

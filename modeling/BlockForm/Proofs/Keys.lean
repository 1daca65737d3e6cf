import BlockForm.Type.Key

/-!
# BlockForm.Proofs.Keys — which types have the same text

The text of a type leaves two things out: the body of a definition, and the parentheses around an operand that is
joined by the connective around it.  Otherwise it can be read back, as long as names keep clear of the characters and
words that the text uses itself and every connective joins at least two operands (`Ty.isPlain`).  So two plain types
have the same text exactly if they agree up to these two things (`Ty.key_eq_iff`).
-/

namespace BlockForm

namespace Ty

/-! ## Types up to what the text leaves out -/

mutual

/-- The type with the body of every definition left out. -/
def outline : Ty → Ty
  | elementary e => elementary e
  | leaf name ty => leaf name ty.outline
  | operator op operands => operator op (outlines operands)
  | defined name _ => defined name nil

/-- The outlines of a list. -/
def outlines : List Ty → List Ty
  | [] => []
  | ty :: tys => ty.outline :: outlines tys

end

/-- The operands that a type brings to a connective: its own if it is joined by the same one, else itself. -/
def operandsUnder (op : Connective) : Ty → List Ty
  | operator op' operands => if op' = op then operands else [operator op' operands]
  | ty => [ty]

mutual

/-- The outline of a type, with the operands of an operand that is joined by the connective around it in its
place. -/
def canonical : Ty → Ty
  | elementary e => elementary e
  | leaf name ty => leaf name ty.canonical
  | operator op operands => operator op (splice op operands)
  | defined name _ => defined name nil

/-- What the canonical forms of a list bring to a connective. -/
def splice (op : Connective) : List Ty → List Ty
  | [] => []
  | ty :: tys => ty.canonical.operandsUnder op ++ splice op tys

end

/-- The characters that the text of a type uses between names. -/
def isReserved (c : Char) : Bool := [',', '|', '-', '>', '(', ')', ':'].contains c

/-- The name has no reserved character. -/
def isWord (name : String) : Bool := name.toList.all fun c => !isReserved c

mutual

/-- Names are words, those of definitions are no elementary types, and every connective joins at least two
operands. -/
def isPlain : Ty → Bool
  | elementary _ => true
  | leaf name ty => isWord name && ty.isPlain
  | operator _ operands => decide (2 ≤ operands.length) && arePlain operands
  | defined name _ => isWord name && (Elementary.ofName? name).isNone

/-- Every type of a list is plain. -/
def arePlain : List Ty → Bool
  | [] => true
  | ty :: tys => ty.isPlain && arePlain tys

end

/-- The type is joined by the connective at its top. -/
def isJoinedBy (op : Connective) : Ty → Bool
  | operator op' _ => op' == op
  | _ => false

mutual

/-- No operand is joined by the connective around it. -/
def isAlternating : Ty → Bool
  | elementary _ => true
  | leaf _ ty => ty.isAlternating
  | operator op operands => alternate op operands
  | defined _ _ => true

/-- The types can stand under a connective, and alternate themselves. -/
def alternate (op : Connective) : List Ty → Bool
  | [] => true
  | ty :: tys => !ty.isJoinedBy op && ty.isAlternating && alternate op tys

end

/-! ## Words and what ends them -/

/-- The text does not go on with a name. -/
def Halts (r : List Char) : Prop := ∀ c ∈ r.head?, isReserved c = true

/-- The text goes on as it can after an operand: with a separator, a closing parenthesis, or not at all. -/
def Stops (r : List Char) : Prop := ∀ c ∈ r.head?, c ∈ [',', '|', '-', ')']

/-- The text goes on as it can after the last operand: with a closing parenthesis or not at all. -/
def Closes (r : List Char) : Prop := ∀ c ∈ r.head?, c = ')'

theorem Stops.halts {r : List Char} (h : Stops r) : Halts r := by
  intro c hc
  have hmem := h c hc
  simp only [List.mem_cons, List.not_mem_nil, or_false] at hmem
  rcases hmem with rfl | rfl | rfl | rfl <;> rfl

theorem Closes.stops {r : List Char} (h : Closes r) : Stops r := by
  intro c hc
  simp [h c hc]

theorem stops_nil : Stops [] := nofun

theorem closes_nil : Closes [] := nofun

theorem closes_cons (r : List Char) : Closes (')' :: r) := by
  intro c hc
  simpa using hc.symm

theorem stops_separator (op : Connective) (r : List Char) : Stops (op.separator.toList ++ r) := by
  intro c hc
  cases op <;> simp_all [Connective.separator, eq_comm]

/-- A closing text is no separator. -/
theorem Closes.ne_separator {r s : List Char} (h : Closes r) (op : Connective) : r ≠ op.separator.toList ++ s := by
  rintro rfl
  cases op <;> simp [Closes, Connective.separator] at h

theorem separator_append_inj {op op' : Connective} {r s : List Char}
    (h : op.separator.toList ++ r = op'.separator.toList ++ s) : op = op' ∧ r = s := by
  cases op <;> cases op' <;> simp_all [Connective.separator]

/-- A word ends where the text goes on with something else. -/
theorem word_append_inj {v w r s : List Char} (hv : v.all (fun c => !isReserved c))
    (hw : w.all (fun c => !isReserved c)) (hr : Halts r) (hs : Halts s) (h : v ++ r = w ++ s) : v = w ∧ r = s := by
  induction v generalizing w with
  | nil =>
    cases w with
    | nil => exact ⟨rfl, h⟩
    | cons c w =>
      have hc := hr c (by simp_all)
      simp [hc] at hw
  | cons a v ih =>
    cases w with
    | nil =>
      rw [List.nil_append] at h
      have ha := hs a (by rw [← h]; rfl)
      simp [ha] at hv
    | cons c w =>
      simp only [List.cons_append, List.cons.injEq] at h
      simp only [List.all_cons, Bool.and_eq_true] at hv hw
      obtain ⟨hvw, hrs⟩ := ih hv.2 hw.2 h.2
      exact ⟨by rw [h.1, hvw], hrs⟩

theorem isWord_elementary (e : Elementary) : isWord e.name = true := by
  cases e <;> decide

theorem ofName?_name (e : Elementary) : Elementary.ofName? e.name = some e := by
  cases e <;> decide

/-! ## Reading a text back -/

/-- The text of a type where an operand stands, inside parentheses if it is joined by a connective. -/
def operandText (ty : Ty) : String := parenthesized none ty ty.key

/-- The name that the text of an operand starts with, unless it starts with a parenthesis. -/
def word? : Ty → Option String
  | elementary e => some e.name
  | leaf name _ => some name
  | operator _ _ => none
  | defined name _ => some name

/-- What follows the name in the text of an operand. -/
def afterWord : Ty → String
  | leaf _ ty => ":" ++ ty.operandText
  | _ => ""

theorem operandText_of_word? {ty : Ty} {name : String} (h : ty.word? = some name) :
    ty.operandText = name ++ ty.afterWord ∧ ty.key = ty.operandText := by
  cases ty with
  | elementary e =>
    cases h
    simp [operandText, parenthesized, key, afterWord]
  | leaf n ty =>
    cases h
    simp [operandText, parenthesized, key, afterWord, String.append_assoc]
  | operator op operands => cases h
  | defined n body =>
    cases h
    simp [operandText, parenthesized, key, afterWord]

theorem isWord_of_word? {ty : Ty} {name : String} (h : ty.word? = some name) (hp : ty.isPlain = true) :
    isWord name = true := by
  cases ty with
  | elementary e =>
    cases h
    exact isWord_elementary e
  | leaf n ty =>
    cases h
    rw [isPlain, Bool.and_eq_true] at hp
    exact hp.1
  | operator op operands => cases h
  | defined n body =>
    cases h
    rw [isPlain, Bool.and_eq_true] at hp
    exact hp.1

theorem halts_afterWord (ty : Ty) {r : List Char} (hr : Stops r) : Halts (ty.afterWord.toList ++ r) := by
  cases ty with
  | leaf n ty =>
    intro c hc
    simp only [afterWord, String.toList_append, List.append_assoc] at hc
    simp at hc
    subst hc
    rfl
  | elementary e => simpa [afterWord] using hr.halts
  | operator op operands => simpa [afterWord] using hr.halts
  | defined n body => simpa [afterWord] using hr.halts

/-- The text of an operand that starts with a name starts with no parenthesis. -/
theorem word_ne_parenthesis {ty : Ty} {name : String} (h : ty.word? = some name) (hp : ty.isPlain = true)
    {r s : List Char} (hr : Stops r) : ty.operandText.toList ++ r ≠ '(' :: s := by
  intro heq
  have hw := isWord_of_word? h hp
  rw [(operandText_of_word? h).1, String.toList_append, List.append_assoc] at heq
  cases hn : name.toList with
  | nil =>
    rw [hn, List.nil_append] at heq
    cases ty with
    | leaf n ty => simp [afterWord] at heq
    | elementary e | operator op operands | defined n body =>
      simp only [afterWord, String.toList_empty, List.nil_append] at heq
      have := hr '(' (by rw [heq]; rfl)
      simp at this
  | cons c cs =>
    rw [hn, List.cons_append, List.cons.injEq] at heq
    simp [isWord, hn, heq.1, isReserved] at hw

theorem toList_operandText_operator (op : Connective) (tys : List Ty) (r : List Char) :
    (operator op tys).operandText.toList ++ r = '(' :: ((operator op tys).key.toList ++ ')' :: r) := by
  have htext : (operator op tys).operandText = "(" ++ (operator op tys).key ++ ")" := rfl
  simp [htext]

theorem operandKeys_of_alternate {op : Connective} {tys : List Ty} (h : alternate op tys = true) :
    operandKeys op tys = tys.map operandText := by
  induction tys with
  | nil => rfl
  | cons ty tys ih =>
    simp only [alternate, Bool.and_eq_true, Bool.not_eq_true'] at h
    obtain ⟨⟨hj, -⟩, ht⟩ := h
    rw [operandKeys, List.map_cons, ih ht]
    cases ty with
    | operator op' operands =>
      have hne : ¬ op = op' := fun he => by simp [isJoinedBy, he] at hj
      simp [operandText, parenthesized, hne]
    | elementary e | leaf n ty | defined n body => rfl

theorem toList_intercalate_cons_cons (s t u : String) (l : List String) :
    (s.intercalate (t :: u :: l)).toList = t.toList ++ (s.toList ++ (s.intercalate (u :: l)).toList) := by
  simp [String.intercalate_cons_cons, List.append_assoc]

/-- Two operands that start with names start with the same one, if their texts agree. -/
theorem words_append_inj {a b : Ty} {v w : String} (hv : a.word? = some v) (hw : b.word? = some w)
    (ha : a.isPlain = true) (hb : b.isPlain = true) {r s : List Char} (hr : Stops r) (hs : Stops s)
    (h : a.operandText.toList ++ r = b.operandText.toList ++ s) :
    v = w ∧ a.afterWord.toList ++ r = b.afterWord.toList ++ s := by
  rw [(operandText_of_word? hv).1, (operandText_of_word? hw).1, String.toList_append, String.toList_append,
    List.append_assoc, List.append_assoc] at h
  obtain ⟨hvw, hrest⟩ := word_append_inj (isWord_of_word? hv ha) (isWord_of_word? hw hb) (halts_afterWord a hr)
    (halts_afterWord b hs) h
  exact ⟨String.toList_inj.1 hvw, hrest⟩

/-- The type is written by a single name. -/
def isName : Ty → Bool
  | elementary _ | defined _ _ => true
  | leaf _ _ | operator _ _ => false

theorem outline_eq_of_word? {a b : Ty} {v : String} (hv : a.word? = some v) (hw : b.word? = some v)
    (ha : a.isPlain = true) (hb : b.isPlain = true) (hna : a.isName = true) (hnb : b.isName = true) :
    a.outline = b.outline := by
  have clash : ∀ {e : Elementary} {n : String} {body : Ty}, e.name = n → (defined n body).isPlain ≠ true := by
    rintro e n body rfl hp
    simp [isPlain, ofName?_name] at hp
  cases a with
  | leaf n ty | operator op tys => cases hna
  | elementary e =>
    cases hv
    cases b with
    | leaf n ty | operator op tys => cases hnb
    | elementary e' =>
      have he : e'.name = e.name := Option.some.inj hw
      have hee := ofName?_name e'
      rw [he, ofName?_name] at hee
      rw [Option.some.inj hee]
    | defined n body => exact absurd hb (clash (Option.some.inj hw).symm)
  | defined n body =>
    cases hv
    cases b with
    | leaf n ty | operator op tys => cases hnb
    | elementary e' => exact absurd ha (clash (Option.some.inj hw))
    | defined n' body' =>
      cases hw
      rfl

/-- What is written by a single name is not the start of anything else. -/
theorem name_append_inj {a b : Ty} (hn : a.isName = true) (ha : a.isPlain = true) (hb : b.isPlain = true)
    {r s : List Char} (hr : Stops r) (hs : Stops s)
    (h : a.operandText.toList ++ r = b.operandText.toList ++ s) : a.outline = b.outline ∧ r = s := by
  obtain ⟨v, hv, hafter⟩ : ∃ v, a.word? = some v ∧ a.afterWord = "" := by
    cases a with
    | elementary e => exact ⟨_, rfl, rfl⟩
    | defined n body => exact ⟨_, rfl, rfl⟩
    | leaf n ty => cases hn
    | operator op operands => cases hn
  cases b with
  | operator op operands =>
    rw [toList_operandText_operator] at h
    exact absurd h (word_ne_parenthesis hv ha hr)
  | leaf n ty =>
    obtain ⟨-, hrest⟩ := words_append_inj hv rfl ha hb hr hs h
    have hc := hr ':' (by rw [hafter] at hrest; simp [afterWord] at hrest; rw [hrest]; rfl)
    simp at hc
  | elementary e | defined n body =>
    obtain ⟨rfl, hrest⟩ := words_append_inj hv rfl ha hb hr hs h
    rw [hafter] at hrest
    exact ⟨outline_eq_of_word? hv rfl ha hb hn rfl, by simpa [afterWord] using hrest⟩

mutual

/-- **The text of an operand says which type it is and where it ends.** -/
theorem operandText_append_inj : (a : Ty) → ∀ {b : Ty} {r s : List Char}, a.isPlain = true → a.isAlternating = true →
    b.isPlain = true → b.isAlternating = true → Stops r → Stops s →
    a.operandText.toList ++ r = b.operandText.toList ++ s → a.outline = b.outline ∧ r = s
  | elementary e, _, _, _, ha, _, hb, _, hr, hs, h => name_append_inj rfl ha hb hr hs h
  | defined n body, _, _, _, ha, _, hb, _, hr, hs, h => name_append_inj rfl ha hb hr hs h
  | leaf n ty, b, r, s, ha, ha', hb, hb', hr, hs, h => by
    cases b with
    | elementary e | defined n body =>
      obtain ⟨ho, hrs⟩ := name_append_inj rfl hb ha hs hr h.symm
      exact ⟨ho.symm, hrs.symm⟩
    | operator op operands =>
      rw [toList_operandText_operator] at h
      exact absurd h (word_ne_parenthesis rfl ha hr)
    | leaf n' ty' =>
      obtain ⟨rfl, hrest⟩ := words_append_inj rfl rfl ha hb hr hs h
      simp only [isPlain, isAlternating, Bool.and_eq_true] at ha ha' hb hb'
      have hrest' : ty.operandText.toList ++ r = ty'.operandText.toList ++ s := by
        simpa [afterWord] using hrest
      obtain ⟨ho, hrs⟩ := operandText_append_inj ty ha.2 ha' hb.2 hb' hr hs hrest'
      exact ⟨by rw [outline, outline, ho], hrs⟩
  | operator op as, b, r, s, ha, ha', hb, hb', hr, hs, h => by
    rw [toList_operandText_operator] at h
    cases b with
    | elementary e | leaf n ty | defined n body => exact absurd h.symm (word_ne_parenthesis rfl hb hs)
    | operator op' bs =>
      rw [toList_operandText_operator] at h
      obtain ⟨ho, hrs⟩ := joined_append_inj as ha ha' hb hb' (closes_cons r) (closes_cons s) (List.cons.inj h).2
      exact ⟨ho, (List.cons.inj hrs).2⟩

/-- The text of a joined type says which connective joins which operands. -/
theorem joined_append_inj : (as : List Ty) → ∀ {op op' : Connective} {bs : List Ty} {r s : List Char},
    (operator op as).isPlain = true → (operator op as).isAlternating = true → (operator op' bs).isPlain = true →
    (operator op' bs).isAlternating = true → Closes r → Closes s →
    (operator op as).key.toList ++ r = (operator op' bs).key.toList ++ s →
    (operator op as).outline = (operator op' bs).outline ∧ r = s
  | [], _, _, _, _, _, ha, _, _, _, _, _, _ => by simp [isPlain] at ha
  | [_], _, _, _, _, _, ha, _, _, _, _, _, _ => by simp [isPlain] at ha
  | _ :: _ :: _, _, _, [], _, _, _, _, hb, _, _, _, _ => by simp [isPlain] at hb
  | _ :: _ :: _, _, _, [_], _, _, _, _, hb, _, _, _, _ => by simp [isPlain] at hb
  | a :: a' :: as, op, op', b :: b' :: bs, r, s, ha, ha', hb, hb', hr, hs, h => by
    rw [isAlternating] at ha' hb'
    simp only [key, operandKeys_of_alternate ha', operandKeys_of_alternate hb', List.map_cons,
      toList_intercalate_cons_cons, List.append_assoc] at h
    rw [isPlain, arePlain, Bool.and_eq_true, Bool.and_eq_true] at ha hb
    rw [alternate, Bool.and_eq_true, Bool.and_eq_true] at ha' hb'
    -- The first operands end at their separators, which are those of the same connective.
    obtain ⟨ho, hrest⟩ := operandText_append_inj a ha.2.1 ha'.1.2 hb.2.1 hb'.1.2 (stops_separator _ _)
      (stops_separator _ _) h
    obtain ⟨rfl, hrest⟩ := separator_append_inj hrest
    obtain ⟨hos, hrs⟩ := operandTexts_append_inj (a' :: as) (List.cons_ne_nil _ _) (List.cons_ne_nil b' bs) ha.2.2
      ha'.2 hb.2.2 hb'.2 hr hs hrest
    exact ⟨by rw [outline, outline, outlines, ho, hos, outlines.eq_2 b], hrs⟩

/-- The text of operands in a row says which operands they are. -/
theorem operandTexts_append_inj : (as : List Ty) → ∀ {op : Connective} {bs : List Ty} {r s : List Char},
    as ≠ [] → bs ≠ [] → arePlain as = true → alternate op as = true → arePlain bs = true → alternate op bs = true →
    Closes r → Closes s →
    (op.separator.intercalate (as.map operandText)).toList ++ r =
      (op.separator.intercalate (bs.map operandText)).toList ++ s →
    outlines as = outlines bs ∧ r = s
  | [], _, _, _, _, ha, _, _, _, _, _, _, _, _ => absurd rfl ha
  | _ :: _, _, [], _, _, _, hb, _, _, _, _, _, _, _ => absurd rfl hb
  | [a], op, [b], r, s, _, _, ha, ha', hb, hb', hr, hs, h => by
    simp only [arePlain, alternate, Bool.and_eq_true] at ha ha' hb hb'
    simp only [List.map_cons, List.map_nil, String.intercalate_singleton] at h
    obtain ⟨ho, hrs⟩ := operandText_append_inj a ha.1 ha'.1.2 hb.1 hb'.1.2 hr.stops hs.stops h
    exact ⟨by simp only [outlines, ho], hrs⟩
  | [a], op, b :: b' :: bs, r, s, _, _, ha, ha', hb, hb', hr, hs, h => by
    simp only [arePlain, alternate, Bool.and_eq_true] at ha ha' hb hb'
    simp only [List.map_cons, List.map_nil, String.intercalate_singleton, toList_intercalate_cons_cons,
      List.append_assoc] at h
    obtain ⟨-, hrs⟩ := operandText_append_inj a ha.1 ha'.1.2 hb.1 hb'.1.2 hr.stops (stops_separator _ _) h
    exact absurd hrs (hr.ne_separator op)
  | a :: a' :: as, op, [b], r, s, _, _, ha, ha', hb, hb', hr, hs, h => by
    simp only [arePlain, alternate, Bool.and_eq_true] at ha ha' hb hb'
    simp only [List.map_cons, List.map_nil, String.intercalate_singleton, toList_intercalate_cons_cons,
      List.append_assoc] at h
    obtain ⟨-, hrs⟩ := operandText_append_inj a ha.1 ha'.1.2 hb.1 hb'.1.2 (stops_separator _ _) hs.stops h
    exact absurd hrs.symm (hs.ne_separator op)
  | a :: a' :: as, op, b :: b' :: bs, r, s, _, _, ha, ha', hb, hb', hr, hs, h => by
    simp only [List.map_cons, toList_intercalate_cons_cons, List.append_assoc] at h
    rw [arePlain, Bool.and_eq_true] at ha hb
    rw [alternate, Bool.and_eq_true, Bool.and_eq_true] at ha' hb'
    obtain ⟨ho, hrest⟩ := operandText_append_inj a ha.1 ha'.1.2 hb.1 hb'.1.2 (stops_separator _ _)
      (stops_separator _ _) h
    obtain ⟨hos, hrs⟩ := operandTexts_append_inj (a' :: as) (List.cons_ne_nil _ _) (List.cons_ne_nil b' bs) ha.2
      ha'.2 hb.2 hb'.2 hr hs (separator_append_inj hrest).2
    exact ⟨by rw [outlines, ho, hos, outlines.eq_2 b], hrs⟩

end

/-! ## Same text, same type -/

/-- Leaving bodies out does not change which operands stand in parentheses. -/
theorem parenthesized_outline (around : Option Connective) (ty : Ty) (text : String) :
    parenthesized around ty.outline text = parenthesized around ty text := by
  cases ty <;> simp [outline, parenthesized]

mutual

/-- The text of a type does not show the bodies of definitions. -/
theorem key_outline : (ty : Ty) → ty.outline.key = ty.key
  | elementary e => rfl
  | leaf name ty => by rw [outline, key, key, key_outline ty, parenthesized_outline]
  | operator op operands => by rw [outline, key, key, operandKeys_outlines operands]
  | defined name body => rfl

theorem operandKeys_outlines : (tys : List Ty) → ∀ {op : Connective}, operandKeys op (outlines tys) = operandKeys op tys
  | [], _ => rfl
  | ty :: tys, _ => by
    rw [outlines, operandKeys, operandKeys, key_outline ty, parenthesized_outline, operandKeys_outlines tys]

end

theorem key_eq_of_outline_eq {a b : Ty} (h : a.outline = b.outline) : a.key = b.key := by
  rw [← key_outline a, h, key_outline]

theorem outline_eq_of_key_eq {a b : Ty} (ha : a.isPlain = true) (hb : b.isPlain = true)
    (ha' : a.isAlternating = true) (hb' : b.isAlternating = true) (h : a.key = b.key) : a.outline = b.outline := by
  -- A joined type goes on after its first operand, any other text ends where the text of its only operand ends.
  have mixed : ∀ {op : Connective} {tys : List Ty} {c : Ty} {w : String}, (operator op tys).isPlain = true →
      (operator op tys).isAlternating = true → c.isPlain = true → c.isAlternating = true → c.word? = some w →
      (operator op tys).key ≠ c.key := by
    intro op tys c w ht ht' hc hc' hw heq
    match tys, ht, ht' with
    | [], ht, _ | [_], ht, _ => simp [isPlain] at ht
    | t :: t' :: ts, ht, ht' =>
      rw [isAlternating] at ht'
      rw [(operandText_of_word? hw).2, key, operandKeys_of_alternate ht'] at heq
      have hlist := congrArg String.toList heq
      simp only [List.map_cons, toList_intercalate_cons_cons] at hlist
      rw [isPlain, arePlain, Bool.and_eq_true, Bool.and_eq_true] at ht
      rw [alternate, Bool.and_eq_true, Bool.and_eq_true] at ht'
      obtain ⟨-, hrest⟩ := operandText_append_inj t ht.2.1 ht'.1.2 hc hc' (stops_separator _ _) stops_nil
        (by rw [hlist, List.append_nil])
      exact closes_nil.ne_separator op hrest.symm
  have single : ∀ {v w : String}, a.word? = some v → b.word? = some w → a.outline = b.outline := by
    intro v w hv hw
    rw [(operandText_of_word? hv).2, (operandText_of_word? hw).2] at h
    exact (operandText_append_inj a ha ha' hb hb' stops_nil stops_nil (by rw [h])).1
  cases a with
  | operator op as =>
    cases b with
    | operator op' bs => exact (joined_append_inj as ha ha' hb hb' closes_nil closes_nil (by rw [h])).1
    | elementary e | leaf n ty | defined n body => exact absurd h (mixed ha ha' hb hb' rfl)
  | elementary e | leaf n ty | defined n body =>
    cases b with
    | operator op' bs => exact absurd h.symm (mixed hb hb' ha ha' rfl)
    | elementary e' | leaf n' ty' | defined n' body' => exact single rfl rfl

/-! ## Canonical forms -/

theorem arePlain_append {as bs : List Ty} : arePlain (as ++ bs) = (arePlain as && arePlain bs) := by
  induction as with
  | nil => rfl
  | cons a as ih => simp only [List.cons_append, arePlain, ih, Bool.and_assoc]

theorem alternate_append {op : Connective} {as bs : List Ty} :
    alternate op (as ++ bs) = (alternate op as && alternate op bs) := by
  induction as with
  | nil => rfl
  | cons a as ih => simp only [List.cons_append, alternate, ih, Bool.and_assoc]

theorem outlines_append (as bs : List Ty) : outlines (as ++ bs) = outlines as ++ outlines bs := by
  induction as with
  | nil => rfl
  | cons a as ih => simp only [List.cons_append, outlines, ih]

/-- What a plain type brings to a connective is plain, and is not nothing. -/
theorem operandsUnder_plain {ty : Ty} (op : Connective) (h : ty.isPlain = true) :
    arePlain (ty.operandsUnder op) = true ∧ ty.operandsUnder op ≠ [] := by
  cases ty with
  | operator op' operands =>
    rw [operandsUnder]
    split
    · rw [isPlain, Bool.and_eq_true, decide_eq_true_eq] at h
      exact ⟨h.2, List.ne_nil_of_length_pos (by omega)⟩
    · exact ⟨by rw [arePlain, h]; rfl, List.cons_ne_nil _ _⟩
  | elementary e | leaf n ty | defined n body =>
    exact ⟨by simp [operandsUnder, arePlain, h], List.cons_ne_nil _ _⟩

theorem operandsUnder_alternate {ty : Ty} (op : Connective) (h : ty.isAlternating = true) :
    alternate op (ty.operandsUnder op) = true := by
  cases ty with
  | operator op' operands =>
    rw [operandsUnder]
    split
    · next he =>
      subst he
      exact h
    · next he => simp [alternate, isJoinedBy, he, h]
  | elementary e | leaf n ty | defined n body => simp [operandsUnder, alternate, isJoinedBy, h]

theorem outlines_operandsUnder {ty : Ty} (op : Connective) (h : ty.outline = ty) :
    outlines (ty.operandsUnder op) = ty.operandsUnder op := by
  cases ty with
  | operator op' operands =>
    rw [operandsUnder]
    split
    · rw [outline] at h
      exact (operator.inj h).2
    · rw [outlines, h, outlines]
  | elementary e | leaf n ty | defined n body => simp [operandsUnder, outlines, h]

mutual

theorem canonical_plain : (ty : Ty) → ty.isPlain = true → ty.canonical.isPlain = true
  | elementary e, _ => rfl
  | leaf name ty, h => by
    rw [isPlain, Bool.and_eq_true] at h
    rw [canonical, isPlain, h.1, canonical_plain ty h.2]
    rfl
  | operator op operands, h => by
    rw [isPlain, Bool.and_eq_true, decide_eq_true_eq] at h
    obtain ⟨hp, hlen⟩ := splice_plain operands op h.2
    rw [canonical, isPlain, hp, Bool.and_true, decide_eq_true_eq]
    omega
  | defined name body, h => h

theorem splice_plain : (tys : List Ty) → ∀ op : Connective, arePlain tys = true →
    arePlain (splice op tys) = true ∧ tys.length ≤ (splice op tys).length
  | [], _, _ => ⟨rfl, Nat.le_refl _⟩
  | ty :: tys, op, h => by
    rw [arePlain, Bool.and_eq_true] at h
    obtain ⟨hp, hne⟩ := operandsUnder_plain op (canonical_plain ty h.1)
    obtain ⟨hps, hlen⟩ := splice_plain tys op h.2
    have hpos := List.length_pos_iff.2 hne
    rw [splice, arePlain_append, hp, hps, List.length_append, List.length_cons]
    exact ⟨rfl, by omega⟩

end

mutual

theorem canonical_alternating : (ty : Ty) → ty.canonical.isAlternating = true
  | elementary _ => rfl
  | leaf _ ty => canonical_alternating ty
  | operator op operands => splice_alternate operands op
  | defined _ _ => rfl

theorem splice_alternate : (tys : List Ty) → ∀ op : Connective, alternate op (splice op tys) = true
  | [], _ => rfl
  | ty :: tys, op => by
    rw [splice, alternate_append, operandsUnder_alternate op (canonical_alternating ty), splice_alternate tys op]
    rfl

end

mutual

theorem outline_canonical : (ty : Ty) → ty.canonical.outline = ty.canonical
  | elementary e => rfl
  | leaf name ty => by rw [canonical, outline, outline_canonical ty]
  | operator op operands => by rw [canonical, outline, outlines_splice operands op]
  | defined name body => rfl

theorem outlines_splice : (tys : List Ty) → ∀ op : Connective, outlines (splice op tys) = splice op tys
  | [], _ => rfl
  | ty :: tys, op => by
    rw [splice, outlines_append, outlines_operandsUnder op (outline_canonical ty), outlines_splice tys op]

end

theorem intercalate_flatten_cons (s : String) {as : List String} (ha : as ≠ []) (bs : List String) :
    s.intercalate (as ++ bs) = s.intercalate (s.intercalate as :: bs) := by
  cases bs with
  | nil => simp
  | cons b bs =>
    rw [String.intercalate_append_of_ne_nil ha (List.cons_ne_nil b bs), String.intercalate_cons_cons]

theorem operandKeys_append (op : Connective) (as bs : List Ty) :
    operandKeys op (as ++ bs) = operandKeys op as ++ operandKeys op bs := by
  induction as with
  | nil => rfl
  | cons a as ih => simp only [List.cons_append, operandKeys, ih]

/-- An operand has the same text where it stands as the operands it brings have in a row. -/
theorem intercalate_operandsUnder (op : Connective) (ty : Ty) :
    op.separator.intercalate (operandKeys op (ty.operandsUnder op)) = parenthesized (some op) ty ty.key := by
  cases ty with
  | operator op' operands =>
    rw [operandsUnder]
    split
    · next he =>
      subst he
      simp [parenthesized, key]
    · simp [operandKeys]
  | elementary e | leaf n ty | defined n body => simp [operandsUnder, operandKeys]

theorem parenthesized_canonical (around : Option Connective) (ty : Ty) (text : String) :
    parenthesized around ty.canonical text = parenthesized around ty text := by
  cases ty <;> simp [canonical, parenthesized]

mutual

/-- The canonical form has the same text. -/
theorem key_canonical : (ty : Ty) → ty.isPlain = true → ty.canonical.key = ty.key
  | elementary e, _ => rfl
  | leaf name ty, h => by
    rw [isPlain, Bool.and_eq_true] at h
    rw [canonical, key, key, key_canonical ty h.2, parenthesized_canonical]
  | operator op operands, h => by
    rw [isPlain, Bool.and_eq_true] at h
    rw [canonical, key, key, intercalate_splice operands op h.2]
  | defined name body, _ => rfl

theorem intercalate_splice : (tys : List Ty) → ∀ op : Connective, arePlain tys = true →
    op.separator.intercalate (operandKeys op (splice op tys)) = op.separator.intercalate (operandKeys op tys)
  | [], _, _ => rfl
  | ty :: tys, op, h => by
    rw [arePlain, Bool.and_eq_true] at h
    have hne : operandKeys op (ty.canonical.operandsUnder op) ≠ [] := by
      obtain ⟨t, ts, hts⟩ := List.exists_cons_of_ne_nil (operandsUnder_plain op (canonical_plain ty h.1)).2
      rw [hts, operandKeys]
      exact List.cons_ne_nil _ _
    have hlen := (splice_plain tys op h.2).2
    have ih := intercalate_splice tys op h.2
    rw [splice, operandKeys_append, intercalate_flatten_cons _ hne, intercalate_operandsUnder, key_canonical ty h.1,
      parenthesized_canonical, operandKeys]
    cases tys with
    | nil => rfl
    | cons t ts =>
      have hs : operandKeys op (splice op (t :: ts)) ≠ [] := by
        obtain ⟨x, xs, hxs⟩ := List.exists_cons_of_length_pos (Nat.lt_of_lt_of_le (Nat.succ_pos _) hlen)
        rw [hxs, operandKeys]
        exact List.cons_ne_nil _ _
      rw [String.intercalate_cons_of_ne_nil hs, ih, ← String.intercalate_cons_of_ne_nil]
      exact List.cons_ne_nil _ _

end

theorem canonical_eq_of_key_eq {a b : Ty} (ha : a.isPlain = true) (hb : b.isPlain = true) (h : a.key = b.key) :
    a.canonical = b.canonical := by
  have hkeys : a.canonical.key = b.canonical.key := by rw [key_canonical a ha, key_canonical b hb, h]
  have := outline_eq_of_key_eq (canonical_plain a ha) (canonical_plain b hb) (canonical_alternating a)
    (canonical_alternating b) hkeys
  rwa [outline_canonical, outline_canonical] at this

theorem key_eq_of_canonical_eq {a b : Ty} (ha : a.isPlain = true) (hb : b.isPlain = true)
    (h : a.canonical = b.canonical) : a.key = b.key := by
  rw [← key_canonical a ha, h, key_canonical b hb]

/-- **The text of a plain type tells exactly its canonical form**: it does not tell an operand that is joined by the
connective around it from that operand's own operands.  Where there is no such operand it identifies the type,
definitions being known by their names. -/
theorem key_eq_iff {a b : Ty} (ha : a.isPlain = true) (hb : b.isPlain = true) :
    (a.key = b.key ↔ a.canonical = b.canonical) ∧
      (a.isAlternating = true → b.isAlternating = true → (a.key = b.key ↔ a.outline = b.outline)) :=
  ⟨⟨canonical_eq_of_key_eq ha hb, key_eq_of_canonical_eq ha hb⟩,
    fun ha' hb' => ⟨outline_eq_of_key_eq ha hb ha' hb', key_eq_of_outline_eq⟩⟩

end Ty

namespace Sample

/-- `x:i32, (string | point)` -/
def reading : Ty :=
  .operator .product [.leaf "x" (.elementary .i32),
    .operator .sum [.elementary .string, .defined "point" (.elementary .i32)]]

/-- `(x:i32, (string | point)), bool`, the first two members in a product of their own. -/
def grouped : Ty := .operator .product [reading, .elementary .bool]

/-- `x:i32, (string | point), bool` -/
def listed : Ty :=
  .operator .product [.leaf "x" (.elementary .i32),
    .operator .sum [.elementary .string, .defined "point" (.elementary .i32)], .elementary .bool]

theorem grouped_key_iff :
    (grouped.isPlain = true ∧ listed.isPlain = true) ∧
      (grouped.key = listed.key ↔ grouped.canonical = listed.canonical) ∧
        (grouped.isAlternating = true → listed.isAlternating = true →
          (grouped.key = listed.key ↔ grouped.outline = listed.outline)) :=
  ⟨by decide, Ty.key_eq_iff (by decide) (by decide)⟩

/-- Two different types with the same text. -/
theorem grouped_key_eq : grouped.key = listed.key ∧ grouped.outline ≠ listed.outline := by
  decide

end Sample

end BlockForm

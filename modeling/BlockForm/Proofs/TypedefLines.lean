import Mathlib.Data.List.TakeWhile
import BlockForm.Code.Printer
import BlockForm.Code.TypedefLine

/-!
# BlockForm.Proofs.TypedefLines — a printed typedef reads back

The printer joins members by a comma and a blank; the reader cuts the line at the first ` = `, at its parentheses, at
commas and at colons, and trims the pieces.  The two agree as long as no name has a character that the reader cuts at or
trims (`Text.IsIdentifier`).  Texts of types are then free of separators, whatever they refer to: they may have blanks
inside, as that of an unknown typedef does, but not at their ends (`Text.Token`).
-/

namespace BlockForm

namespace Text

/-! ## Texts without separators -/

/-- A character at which the reader of typedef lines cuts. -/
def isSeparator (c : Char) : Bool := c == ',' || c == ':' || c == '(' || c == ')'

/-- The text is not empty and has neither white space nor separators. -/
def IsIdentifier (name : String) : Prop :=
  name ≠ "" ∧ ∀ c ∈ name.toList, isBlank c = false ∧ isSeparator c = false

-- The list is to be gone through, and not the finite type of all characters.
instance (name : String) : Decidable (IsIdentifier name) :=
  @instDecidableAnd _ _ inferInstance (List.decidableBAll _ name.toList)

/-- The text starts and ends with something other than white space. -/
structure Trimmed (cs : List Char) : Prop where
  starts : ∃ c rest, cs = c :: rest ∧ isBlank c = false
  ends : ∃ start c, cs = start ++ [c] ∧ isBlank c = false

/-- A trimmed text without separators. -/
structure Token (cs : List Char) : Prop extends Trimmed cs where
  unseparated : ∀ c ∈ cs, isSeparator c = false

theorem Trimmed.ne_nil {cs : List Char} (h : Trimmed cs) : cs ≠ [] := by
  obtain ⟨c, rest, rfl, -⟩ := h.starts
  exact List.cons_ne_nil c rest

theorem Token.not_mem {cs : List Char} (h : Token cs) {sep : Char} (hsep : isSeparator sep = true) : sep ∉ cs := by
  intro hmem
  rw [h.unseparated sep hmem] at hsep
  cases hsep

/-- A text that starts and ends like two trimmed ones is trimmed. -/
theorem Trimmed.append {cs ds : List Char} (hc : Trimmed cs) (hd : Trimmed ds) (middle : List Char) :
    Trimmed (cs ++ (middle ++ ds)) := by
  obtain ⟨c, rest, rfl, hblank⟩ := hc.starts
  obtain ⟨start, d, rfl, hblank'⟩ := hd.ends
  exact ⟨⟨c, rest ++ (middle ++ (start ++ [d])), rfl, hblank⟩,
    ⟨(c :: rest) ++ (middle ++ start), d, by simp, hblank'⟩⟩

theorem trimmed_of_forall {cs : List Char} (hne : cs ≠ []) (h : ∀ c ∈ cs, isBlank c = false) : Trimmed cs where
  starts := by
    obtain ⟨c, rest, rfl⟩ := List.exists_cons_of_ne_nil hne
    exact ⟨c, rest, rfl, h c (List.mem_cons_self ..)⟩
  ends := by
    refine ⟨cs.dropLast, cs.getLast hne, (List.dropLast_concat_getLast hne).symm, h _ (List.getLast_mem hne)⟩

theorem IsIdentifier.token {name : String} (h : IsIdentifier name) : Token name.toList where
  toTrimmed := trimmed_of_forall (by simpa using h.1) fun c hc => (h.2 c hc).1
  unseparated c hc := (h.2 c hc).2

/-! ## What cutting and trimming do to such texts -/

theorem trim_of_trimmed {cs : List Char} (h : Trimmed cs) : trim cs = cs := by
  have hstart : trimStart cs = cs := by
    obtain ⟨c, rest, rfl, hblank⟩ := h.starts
    exact List.dropWhile_cons_of_neg (by simp [hblank])
  obtain ⟨start, c, rfl, hblank⟩ := h.ends
  rw [trim, hstart, trimEnd, List.reverse_append, List.reverse_singleton, List.singleton_append,
    List.dropWhile_cons_of_neg (by simp [hblank]), ← List.singleton_append, List.reverse_append, List.reverse_reverse]
  rfl

theorem trim_ne_nil {c : Char} (h : isBlank c = false) (rest : List Char) : trim (c :: rest) ≠ [] := by
  have hstart : trimStart (c :: rest) = c :: rest := List.dropWhile_cons_of_neg (by simp [h])
  rw [trim, hstart, trimEnd]
  intro hnil
  have hall := List.dropWhile_eq_nil_iff.1 (List.reverse_eq_nil_iff.1 hnil) c (by simp)
  rw [h] at hall
  cases hall

theorem cutAt_append {sep : Char} {cs : List Char} (h : sep ∉ cs) (rest : List Char) :
    cutAt sep (cs ++ sep :: rest) = some (cs, rest) := by
  induction cs with
  | nil => simp [cutAt]
  | cons c cs ih =>
    obtain ⟨hne, hnot⟩ := not_or.1 (mt List.mem_cons.2 h)
    rw [List.cons_append, cutAt, if_neg (Ne.symm hne), ih hnot]
    rfl

theorem cutAt_eq_none {sep : Char} {cs : List Char} (h : sep ∉ cs) : cutAt sep cs = none := by
  induction cs with
  | nil => rfl
  | cons c cs ih =>
    obtain ⟨hne, hnot⟩ := not_or.1 (mt List.mem_cons.2 h)
    rw [cutAt, if_neg (Ne.symm hne), ih hnot]
    rfl

/-- A text without the first character of the separator ends where the separator starts. -/
theorem cutAtText_append {s : Char} {cs : List Char} (h : s ∉ cs) (sep rest : List Char) :
    cutAtText (s :: sep) (cs ++ (s :: sep) ++ rest) = some (cs, rest) := by
  induction cs with
  | nil =>
    have hprefix : (s :: sep).isPrefixOf (s :: (sep ++ rest)) = true := by simp
    show cutAtText (s :: sep) (s :: (sep ++ rest)) = _
    rw [cutAtText, if_pos hprefix]
    simp
  | cons c cs ih =>
    obtain ⟨hne, hnot⟩ := not_or.1 (mt List.mem_cons.2 h)
    have hprefix : ¬ (s :: sep).isPrefixOf (c :: (cs ++ (s :: sep) ++ rest)) = true := by simp [hne]
    show cutAtText (s :: sep) (c :: (cs ++ (s :: sep) ++ rest)) = _
    rw [cutAtText, if_neg hprefix, ih hnot]
    rfl

theorem pieces_of_not_mem {sep : Char} {cs : List Char} (h : sep ∉ cs) : pieces sep cs = [cs] := by
  induction cs with
  | nil => rfl
  | cons c cs ih =>
    obtain ⟨hne, hnot⟩ := not_or.1 (mt List.mem_cons.2 h)
    rw [pieces, if_neg (Ne.symm hne), ih hnot]

theorem pieces_append {sep : Char} {cs : List Char} (h : sep ∉ cs) (rest : List Char) :
    pieces sep (cs ++ sep :: rest) = cs :: pieces sep rest := by
  induction cs with
  | nil => simp [pieces]
  | cons c cs ih =>
    obtain ⟨hne, hnot⟩ := not_or.1 (mt List.mem_cons.2 h)
    rw [List.cons_append, pieces, if_neg (Ne.symm hne), ih hnot]

/-- Texts joined by commas and blanks come apart at the commas.  What stands before the first text stays with it: for
the texts after a comma that is the blank. -/
theorem pieces_intercalate (rest : List (List Char)) : ∀ (before cs : List Char), ',' ∉ before ++ cs →
    (∀ ds ∈ rest, ',' ∉ ds) →
    pieces ',' (before ++ [',', ' '].intercalate (cs :: rest)) = (before ++ cs) :: rest.map ([' '] ++ ·) := by
  induction rest with
  | nil =>
    intro before cs h _
    rw [List.intercalate_singleton, pieces_of_not_mem h, List.map_nil]
  | cons ds rest ih =>
    intro before cs h hrest
    obtain ⟨hds, hrest⟩ := List.forall_mem_cons.1 hrest
    have hblank : ',' ∉ [' '] ++ ds := by simpa using hds
    calc
      pieces ',' (before ++ [',', ' '].intercalate (cs :: ds :: rest))
        = pieces ',' ((before ++ cs) ++ ',' :: ([' '] ++ [',', ' '].intercalate (ds :: rest))) := by
          rw [List.intercalate_cons_cons]
          simp
      _ = (before ++ cs) :: pieces ',' ([' '] ++ [',', ' '].intercalate (ds :: rest)) := pieces_append h _
      _ = (before ++ cs) :: (ds :: rest).map ([' '] ++ ·) := by rw [ih _ _ hblank hrest, List.map_cons]

theorem mem_of_mem_intercalate {sep : List Char} {c : Char} {parts : List (List Char)}
    (h : c ∈ sep.intercalate parts) : c ∈ sep ∨ ∃ cs ∈ parts, c ∈ cs := by
  induction parts with
  | nil => simp at h
  | cons cs parts ih =>
    cases parts with
    | nil => exact Or.inr ⟨cs, List.mem_singleton_self _, by simpa using h⟩
    | cons ds parts =>
      rw [List.intercalate_cons_cons, List.mem_append, List.mem_append] at h
      rcases h with (h | h) | h
      · exact Or.inr ⟨cs, List.mem_cons_self .., h⟩
      · exact Or.inl h
      · exact (ih h).imp_right fun ⟨es, hes, hc⟩ => ⟨es, List.mem_cons_of_mem _ hes, hc⟩

theorem dropLast?_concat (cs : List Char) (last : Char) : dropLast? last (cs ++ [last]) = some cs := by
  simp [dropLast?]

end Text

open Text

/-! ## Texts of types and members -/

theorem Elementary.name_isIdentifier (e : Elementary) : IsIdentifier e.name := by
  cases e <;> decide

/-- A text of digits between two tokens is a token. -/
theorem Text.Token.around_repr {cs ds : List Char} (hc : Token cs) (hd : Token ds) (n : Nat) :
    Token (cs ++ (n.repr.toList ++ ds)) where
  toTrimmed := hc.toTrimmed.append hd.toTrimmed _
  unseparated := by
    intro c hmem
    rcases List.mem_append.1 hmem with hmem | hmem
    · exact hc.unseparated c hmem
    rcases List.mem_append.1 hmem with hmem | hmem
    · rw [Nat.toList_repr] at hmem
      have hdigit := Nat.isDigit_of_mem_toDigits (by decide) (by decide) hmem
      by_contra hsep
      simp only [isSeparator, Bool.not_eq_false, Bool.or_eq_true, beq_iff_eq] at hsep
      rcases hsep with ((rfl | rfl) | rfl) | rfl <;> exact absurd hdigit (by decide)
    · exact hd.unseparated c hmem

theorem Text.Token.append {cs ds : List Char} (hc : Token cs) (hd : Token ds) : Token (cs ++ ds) where
  toTrimmed := by simpa using hc.toTrimmed.append hd.toTrimmed []
  unseparated c hmem := (List.mem_append.1 hmem).elim (hc.unseparated c) (hd.unseparated c)

namespace TypedefLine

/-- A trimmed text without a comma that reads as a member. -/
structure Writes (text : List Char) (member : Option String × String) : Prop extends Trimmed text where
  comma : ',' ∉ text
  reads : member? text = some member

section Joined

variable {ι : Type} {text : ι → List Char} {member : ι → Option String × String}

/-- The members after the first, each with a blank in front, read back. -/
theorem mapM_member?_blank {ms : List ι} (h : ∀ m ∈ ms, Writes (text m) (member m)) :
    (ms.map fun m => [' '] ++ text m).mapM (fun piece => member? (trim piece)) = some (ms.map member) := by
  induction ms with
  | nil => rfl
  | cons m ms ih =>
    obtain ⟨hw, hws⟩ := List.forall_mem_cons.1 h
    have hblank : trim ([' '] ++ text m) = trim (text m) := rfl
    rw [List.map_cons, List.mapM_cons, hblank, trim_of_trimmed hw.toTrimmed, hw.reads, ih hws]
    rfl

/-- Texts of members joined by commas and blanks read back as the members. -/
theorem members?_intercalate {ms : List ι} (h : ∀ m ∈ ms, Writes (text m) (member m)) :
    members? ([',', ' '].intercalate (ms.map text)) = some (ms.map member) := by
  cases ms with
  | nil => rfl
  | cons m ms =>
    obtain ⟨hw, hws⟩ := List.forall_mem_cons.1 h
    have hpieces := pieces_intercalate (ms.map text) [] (text m) hw.comma
      (by simpa using fun m' hm' => (hws m' hm').comma)
    have hfilled : (trim ([',', ' '].intercalate ((m :: ms).map text))).isEmpty = false := by
      obtain ⟨c, start, hstart, hblank⟩ := hw.starts
      have hcons : ∃ tail, [',', ' '].intercalate ((m :: ms).map text) = c :: tail := by
        rw [List.map_cons, hstart]
        cases ms <;> exact ⟨_, rfl⟩
      obtain ⟨tail, htail⟩ := hcons
      rw [htail]
      simpa using trim_ne_nil hblank tail
    rw [members?, hfilled, List.map_cons]
    simp only [List.nil_append, List.map_map] at hpieces
    simp only [Bool.false_eq_true, if_false, hpieces]
    rw [List.mapM_cons, trim_of_trimmed hw.toTrimmed, hw.reads]
    have hrest := mapM_member?_blank hws
    simp only [Function.comp_def, hrest]
    rfl

end Joined

/-- What stands between the parentheses has none. -/
theorem cutBody?_intercalate {texts : List (List Char)} (h : ∀ t ∈ texts, '(' ∉ t ∧ ')' ∉ t) :
    cutBody? ([',', ' '].intercalate texts ++ [')']) = some ([',', ' '].intercalate texts) := by
  have hnone : (([',', ' '].intercalate texts).any fun c => c == '(' || c == ')') = false := by
    rw [List.any_eq_false]
    intro c hc
    rcases mem_of_mem_intercalate hc with hc | ⟨t, ht, hc⟩
    · have hsep : c = ',' ∨ c = ' ' := by simpa using hc
      rcases hsep with rfl | rfl <;> decide
    · obtain ⟨hopen, hclose⟩ := h t ht
      have hne : c ≠ '(' ∧ c ≠ ')' := ⟨fun heq => hopen (heq ▸ hc), fun heq => hclose (heq ▸ hc)⟩
      simp [hne]
  rw [cutBody?, dropLast?_concat]
  simp only [hnone, Bool.false_eq_true, if_false]

end TypedefLine

namespace CompilationUnit

variable {u : CompilationUnit}

/-- The typedef that a type refers to, if it is one of the unit, has an identifier for a name. -/
def RefersToIdentifier (u : CompilationUnit) (ty : LoweredType) : Prop :=
  ∀ id ∈ ty.typedef?, ∀ t ∈ u.typedefAt? id, IsIdentifier t.name

instance (u : CompilationUnit) (ty : LoweredType) : Decidable (u.RefersToIdentifier ty) :=
  inferInstanceAs (Decidable (∀ id ∈ ty.typedef?, ∀ t ∈ u.typedefAt? id, IsIdentifier t.name))

/-- The text of a type has no separators, even if it refers to an unknown typedef. -/
theorem typeText_token {ty : LoweredType} (h : u.RefersToIdentifier ty) : Token (u.typeText ty).toList := by
  obtain ⟨kind, pointer⟩ := ty
  have dollar : Token "$".toList := IsIdentifier.token (by decide)
  have star : Token "*".toList := IsIdentifier.token (by decide)
  have base : Token (u.typeText ⟨kind, false⟩).toList := by
    cases kind with
    | elementary e => exact (Elementary.name_isIdentifier e).token
    | composite id =>
      have hrefers : ∀ t, u.typedefAt? id = some t → IsIdentifier t.name := fun t ht => h id rfl t ht
      simp only [typeText, Bool.false_eq_true, if_false]
      cases ht : u.typedefAt? id with
      | some t =>
        rw [String.toList_append]
        exact dollar.append (hrefers t ht).token
      | none =>
        rw [String.toList_append, String.toList_append, List.append_assoc]
        have opening : Token "$<typedef #".toList :=
          ⟨⟨⟨'$', _, rfl, rfl⟩, ⟨"$<typedef ".toList, '#', by decide, rfl⟩⟩, by simp [isSeparator]⟩
        exact opening.around_repr (IsIdentifier.token (by decide)) id.index
  cases pointer with
  | false => exact base
  | true =>
    have htext : u.typeText ⟨kind, true⟩ = u.typeText ⟨kind, false⟩ ++ "*" := rfl
    rw [htext, String.toList_append]
    exact base.append star

/-- The names that the line of a typedef mentions are identifiers: its own, those of its members and those of the
typedefs that the members refer to. -/
structure NamesIdentifiers (u : CompilationUnit) (t : TypeDef) : Prop where
  name : IsIdentifier t.name
  memberNames : ∀ m ∈ t.members, ∀ n ∈ m.name, IsIdentifier n
  memberTypes : ∀ m ∈ t.members, u.RefersToIdentifier m.ty

theorem toList_memberText_named {m : TypeMember} {n : String} (h : m.name = some n) :
    (u.memberText m).toList = n.toList ++ ':' :: (u.typeText m.ty).toList := by
  rw [memberText, h, String.toList_append, String.toList_append, List.append_assoc]
  rfl

theorem memberText_unnamed {m : TypeMember} (h : m.name = none) : u.memberText m = u.typeText m.ty := by
  rw [memberText, h]

/-- The text of a member is trimmed, and its only separator is the colon after its name. -/
theorem memberText_trimmed {m : TypeMember} (hn : ∀ n ∈ m.name, IsIdentifier n) (hty : u.RefersToIdentifier m.ty) :
    Trimmed (u.memberText m).toList ∧ ∀ c ∈ (u.memberText m).toList, isSeparator c = true → c = ':' := by
  have htype := typeText_token hty
  cases hname : m.name with
  | none =>
    rw [memberText_unnamed hname]
    exact ⟨htype.toTrimmed, fun c hc hsep => absurd hc (htype.not_mem hsep)⟩
  | some n =>
    have htoken := (hn n hname).token
    rw [toList_memberText_named hname]
    refine ⟨htoken.toTrimmed.append htype.toTrimmed [':'], fun c hc hsep => ?_⟩
    rcases List.mem_append.1 hc with hc | hc
    · exact absurd hc (htoken.not_mem hsep)
    rcases List.mem_cons.1 hc with rfl | hc
    · rfl
    · exact absurd hc (htype.not_mem hsep)

/-! ## Reading -/

/-- A member reads back as its name and the text of its type. -/
theorem member?_memberText {m : TypeMember} (hn : ∀ n ∈ m.name, IsIdentifier n) (hty : u.RefersToIdentifier m.ty) :
    TypedefLine.member? (u.memberText m).toList = some (m.name, u.typeText m.ty) := by
  have htype := typeText_token hty
  have htext : (u.typeText m.ty).toList.isEmpty = false := by simpa using htype.ne_nil
  unfold TypedefLine.member?
  cases hname : m.name with
  | none =>
    rw [memberText_unnamed hname, cutAt_eq_none (htype.not_mem rfl)]
    simp only [htext, Bool.false_eq_true, if_false, String.ofList_toList]
  | some n =>
    have htoken := (hn n hname).token
    have hfilled : n.toList.isEmpty = false := by simpa using htoken.ne_nil
    rw [toList_memberText_named hname, cutAt_append (htoken.not_mem rfl)]
    simp only [hfilled, htext, Bool.or_self, Bool.false_eq_true, if_false, String.ofList_toList]

/-- The text of a member reads back on its own. -/
theorem memberText_writes {m : TypeMember} (hn : ∀ n ∈ m.name, IsIdentifier n) (hty : u.RefersToIdentifier m.ty) :
    TypedefLine.Writes (u.memberText m).toList (m.name, u.typeText m.ty) where
  toTrimmed := (memberText_trimmed hn hty).1
  comma hmem := absurd ((memberText_trimmed hn hty).2 ',' hmem rfl) (by decide)
  reads := member?_memberText hn hty

theorem toList_joined (ms : List TypeMember) : (", ".intercalate (ms.map u.memberText)).toList =
    [',', ' '].intercalate (ms.map fun m => (u.memberText m).toList) := by
  rw [String.toList_intercalate, List.map_map]
  rfl

/-- What stands between the parentheses reads back as the members. -/
theorem members?_joined {ms : List TypeMember} (hn : ∀ m ∈ ms, ∀ n ∈ m.name, IsIdentifier n)
    (hty : ∀ m ∈ ms, u.RefersToIdentifier m.ty) :
    TypedefLine.members? (", ".intercalate (ms.map u.memberText)).toList =
      some (ms.map fun m => (m.name, u.typeText m.ty)) := by
  rw [toList_joined]
  exact TypedefLine.members?_intercalate fun m hm => memberText_writes (hn m hm) (hty m hm)

/-! ## Lines -/

theorem isUnionKeyword?_layoutKeyword (isUnion : Bool) :
    TypedefLine.isUnionKeyword? (layoutKeyword isUnion).toList = some isUnion := by
  cases isUnion <;> decide

theorem cutBody?_joined {ms : List TypeMember} (hn : ∀ m ∈ ms, ∀ n ∈ m.name, IsIdentifier n)
    (hty : ∀ m ∈ ms, u.RefersToIdentifier m.ty) :
    TypedefLine.cutBody? ((", ".intercalate (ms.map u.memberText)).toList ++ [')']) =
      some (", ".intercalate (ms.map u.memberText)).toList := by
  rw [toList_joined]
  refine TypedefLine.cutBody?_intercalate ?_
  simp only [List.forall_mem_map]
  intro m hm
  have honly := (memberText_trimmed (hn m hm) (hty m hm)).2
  exact ⟨fun hmem => absurd (honly '(' hmem rfl) (by decide), fun hmem => absurd (honly ')' hmem rfl) (by decide)⟩

theorem toList_typedefLine (u : CompilationUnit) (t : TypeDef) :
    (u.typedefLine t).toList = '$' :: (t.name.toList ++ " = ".toList ++ ((layoutKeyword t.isUnion).toList ++
      '(' :: ((", ".intercalate (t.members.map u.memberText)).toList ++ [')']))) := by
  simp only [typedefLine, String.toList_append, List.append_assoc]
  rfl

/-- **The line of a typedef reads back** as the name of the typedef, whether it is a union, and its members in order,
each with its name, if it has one, and the text of its type.  The names that the line mentions are to be identifiers;
nothing else is asked of the typedefs that members refer to, not even that the unit has them. -/
theorem parse_typedefLine {t : TypeDef} (h : u.NamesIdentifiers t) :
    TypedefLine.parse (u.typedefLine t) =
      .ok ⟨t.name, t.isUnion, t.members.map fun m => (m.name, u.typeText m.ty)⟩ := by
  have htoken := h.name.token
  have hblank : ' ' ∉ t.name.toList := fun hmem => absurd (h.name.2 ' ' hmem).1 (by decide)
  have hfilled : t.name.toList.isEmpty = false := by simpa using htoken.ne_nil
  have hparen : '(' ∉ (layoutKeyword t.isUnion).toList := by
    cases t.isUnion <;> decide
  -- the line starts with the dollar sign and ends with the parenthesis
  have htrim : trim (u.typedefLine t).toList = (u.typedefLine t).toList := by
    refine trim_of_trimmed ⟨⟨'$', _, toList_typedefLine u t, rfl⟩, ?_⟩
    rw [toList_typedefLine]
    refine ⟨'$' :: (t.name.toList ++ " = ".toList ++ ((layoutKeyword t.isUnion).toList ++
      '(' :: (", ".intercalate (t.members.map u.memberText)).toList)), ')', by simp, rfl⟩
  have hname : TypedefLine.cutName? (u.typedefLine t).toList = some (t.name.toList,
      (layoutKeyword t.isUnion).toList ++
        '(' :: ((", ".intercalate (t.members.map u.memberText)).toList ++ [')'])) := by
    rw [toList_typedefLine, TypedefLine.cutName?]
    have hcut := cutAtText_append hblank ['=', ' '] ((layoutKeyword t.isUnion).toList ++
      '(' :: ((", ".intercalate (t.members.map u.memberText)).toList ++ [')']))
    have hsep : " = ".toList = [' ', '=', ' '] := rfl
    simp only [hsep, hcut, hfilled, Bool.false_eq_true, if_false]
  unfold TypedefLine.parse
  simp only [htrim, hname, cutAt_append hparen, isUnionKeyword?_layoutKeyword,
    cutBody?_joined h.memberNames h.memberTypes, members?_joined h.memberNames h.memberTypes, String.ofList_toList]

end CompilationUnit

namespace Sample

/-- A unit with one typedef, `point`. -/
def pointUnit : CompilationUnit :=
  { CompilationUnit.empty "sample" {} with
    typedefs := Table.empty.insert "point"
      ⟨"point", false, [⟨some "x", .elementary .i32⟩, ⟨some "y", .elementary .i32⟩]⟩ }

/-- A union with named and unnamed members: a typedef of the unit, its address, a typedef the unit does not have, and an
elementary type. -/
def drawing : TypeDef :=
  ⟨"drawing", true, [⟨some "centre", .composite ⟨0⟩⟩, ⟨none, (LoweredType.composite ⟨0⟩).pointerTo⟩,
    ⟨none, .composite ⟨7⟩⟩, ⟨some "label", .elementary .string⟩]⟩

theorem drawing_parses :
    pointUnit.NamesIdentifiers drawing ∧
      pointUnit.typedefLine drawing = "$drawing = uniondef(centre:$point, $point*, $<typedef #7>, label:string)" ∧
      TypedefLine.parse (pointUnit.typedefLine drawing) =
        .ok ⟨"drawing", true, [(some "centre", "$point"), (none, "$point*"), (none, "$<typedef #7>"),
          (some "label", "string")]⟩ := by
  have hnames : pointUnit.NamesIdentifiers drawing := ⟨by decide, by decide, by decide⟩
  exact ⟨hnames, by decide +kernel, CompilationUnit.parse_typedefLine hnames⟩

end Sample

end BlockForm

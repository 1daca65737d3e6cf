import BlockForm.Proofs.TypedefLines

/-!
# BlockForm.Proofs.CanonicalLines — every typedef line that is read has a canonical form

The reader takes more than the printer writes: white space around the line and its members, and names with blanks, signs
or parentheses in them.  What it returns is free of the characters it has cut at, and where it cut first it cuts first
again: written in the format of the printer (`TypedefLine.render`), the parts of an accepted line read back the same.
-/

namespace BlockForm

namespace Text

/-! ## What the pieces of a text are -/

theorem cutAt_eq_some {sep : Char} {cs before after : List Char} (h : cutAt sep cs = some (before, after)) :
    cs = before ++ sep :: after ∧ sep ∉ before := by
  induction cs generalizing before with
  | nil => cases h
  | cons c cs ih =>
    rw [cutAt] at h
    by_cases hc : c = sep
    · rw [if_pos hc] at h
      cases h
      exact ⟨by rw [hc]; rfl, List.not_mem_nil⟩
    · rw [if_neg hc] at h
      obtain ⟨⟨b, a⟩, hcut, heq⟩ := Option.map_eq_some_iff.1 h
      cases heq
      obtain ⟨rfl, hb⟩ := ih hcut
      exact ⟨rfl, by simp [Ne.symm hc, hb]⟩

/-- A cut at the first occurrence of a text stays where it is, whatever follows: an earlier occurrence would lie in what
stands before the cut and in the separator, and so would have come first already. -/
theorem cutAtText_again {sep cs before after : List Char} (hsep : sep ≠ [])
    (h : cutAtText sep cs = some (before, after)) :
    cs = before ++ sep ++ after ∧ ∀ rest, cutAtText sep (before ++ sep ++ rest) = some (before, rest) := by
  induction cs generalizing before with
  | nil => simp [cutAtText, hsep] at h
  | cons c cs ih =>
    rw [cutAtText] at h
    by_cases hc : sep.isPrefixOf (c :: cs) = true
    · rw [if_pos hc] at h
      cases h
      obtain ⟨tail, htail⟩ := List.isPrefixOf_iff_prefix.1 hc
      refine ⟨by simp [← htail], fun rest => ?_⟩
      obtain ⟨d, sep, rfl⟩ := List.exists_cons_of_ne_nil hsep
      exact cutAtText_append List.not_mem_nil sep rest
    · rw [if_neg hc] at h
      obtain ⟨⟨b, a⟩, hcut, heq⟩ := Option.map_eq_some_iff.1 h
      cases heq
      obtain ⟨rfl, hagain⟩ := ih hcut
      refine ⟨rfl, fun rest => ?_⟩
      have hnot : ¬ sep.isPrefixOf (c :: (b ++ sep ++ rest)) = true := by
        intro hpre
        have hwithin : sep <+: c :: (b ++ sep) :=
          List.prefix_of_prefix_length_le (List.isPrefixOf_iff_prefix.1 hpre) (List.prefix_append _ rest)
            (by simp only [List.length_cons, List.length_append]; omega)
        exact hc (List.isPrefixOf_iff_prefix.2 (hwithin.trans (List.prefix_append _ after)))
      show cutAtText sep (c :: (b ++ sep ++ rest)) = _
      rw [cutAtText, if_neg hnot, hagain]
      rfl

theorem mem_pieces {sep : Char} {cs piece : List Char} (h : piece ∈ pieces sep cs) : sep ∉ piece ∧ piece ⊆ cs := by
  induction cs generalizing piece with
  | nil =>
    obtain rfl := List.mem_singleton.1 h
    exact ⟨List.not_mem_nil, List.Subset.refl _⟩
  | cons c cs ih =>
    rw [pieces] at h
    by_cases hc : c = sep
    · rw [if_pos hc] at h
      rcases List.mem_cons.1 h with rfl | h
      · exact ⟨List.not_mem_nil, List.nil_subset _⟩
      · exact ⟨(ih h).1, List.subset_cons_of_subset c (ih h).2⟩
    · rw [if_neg hc] at h
      cases hp : pieces sep cs with
      | nil =>
        rw [hp] at h
        obtain rfl := List.mem_singleton.1 h
        exact ⟨by simp [Ne.symm hc], by simp⟩
      | cons first others =>
        rw [hp] at h ih
        rcases List.mem_cons.1 h with rfl | h
        · obtain ⟨hnot, hsub⟩ := ih (List.mem_cons_self ..)
          exact ⟨by simp [Ne.symm hc, hnot], List.cons_subset_cons c hsub⟩
        · obtain ⟨hnot, hsub⟩ := ih (List.mem_cons_of_mem _ h)
          exact ⟨hnot, List.subset_cons_of_subset c hsub⟩

theorem trim_subset (cs : List Char) : trim cs ⊆ cs := by
  intro c hc
  have hstart : c ∈ trimStart cs := by
    simpa using (List.dropWhile_sublist _).subset (List.mem_reverse.1 hc)
  exact (List.dropWhile_sublist _).subset hstart

/-- What is left after trimming, if anything, is trimmed. -/
theorem trimmed_trim {cs : List Char} (h : trim cs ≠ []) : Trimmed (trim cs) := by
  have hne : (trimStart cs).reverse.dropWhile isBlank ≠ [] := by simpa [trim, trimEnd] using h
  have hends : ∃ start c, trim cs = start ++ [c] ∧ isBlank c = false := by
    obtain ⟨c, rest, hcons⟩ := List.exists_cons_of_ne_nil hne
    refine ⟨rest.reverse, c, by simp [trim, trimEnd, hcons], ?_⟩
    have hhead := List.head_dropWhile_not isBlank hne
    simpa [hcons] using hhead
  refine ⟨?_, hends⟩
  -- trimming the end leaves the first character, and trimming the start has left one that is not white space
  have hstart : trimStart cs ≠ [] := fun hnil => by simp [hnil] at hne
  have hprefix : trim cs <+: trimStart cs := by
    have hsuffix : (trimStart cs).reverse.dropWhile isBlank <:+ (trimStart cs).reverse := List.dropWhile_suffix _
    simpa [trim, trimEnd] using List.reverse_prefix.2 hsuffix
  obtain ⟨c, rest, htrim⟩ := List.exists_cons_of_ne_nil h
  obtain ⟨d, tail, hcons⟩ := List.exists_cons_of_ne_nil hstart
  have hblank : isBlank d = false := by
    have hhead := List.head_dropWhile_not isBlank (l := cs) hstart
    unfold trimStart at hcons
    simpa [hcons] using hhead
  rw [htrim, hcons] at hprefix
  exact ⟨c, rest, htrim, (List.cons_prefix_cons.1 hprefix).1 ▸ hblank⟩

/-- The text is not empty and has neither commas nor parentheses. -/
def IsClear (text : String) : Prop := text ≠ "" ∧ ',' ∉ text.toList ∧ '(' ∉ text.toList ∧ ')' ∉ text.toList

end Text

open Text

namespace TypedefLine

/-! ## The canonical form -/

/-- A member in the format of the printer: its name, if it has one, and its type. -/
def memberText : Option String × String → String
  | (some name, ty) => name ++ ":" ++ ty
  | (none, ty) => ty

/-- The line in the format of the printer. -/
def render (p : TypedefLine) : String :=
  "$" ++ p.name ++ " = " ++ CompilationUnit.layoutKeyword p.isUnion ++ "(" ++
    ", ".intercalate (p.members.map memberText) ++ ")"

/-- The parts of a line that the reader finds again in its canonical form. -/
structure Rereadable (p : TypedefLine) : Prop where
  filled : p.name ≠ ""
  /-- The name ends where the first ` = ` starts. -/
  cut : ∀ rest, cutAtText " = ".toList (p.name.toList ++ " = ".toList ++ rest) = some (p.name.toList, rest)
  members : ∀ m ∈ p.members, Writes (memberText m).toList m
  parentheses : ∀ m ∈ p.members, '(' ∉ (memberText m).toList ∧ ')' ∉ (memberText m).toList

end TypedefLine

/-- The printer writes canonical lines. -/
theorem CompilationUnit.typedefLine_eq_render (u : CompilationUnit) (t : TypeDef) :
    u.typedefLine t = TypedefLine.render ⟨t.name, t.isUnion, t.members.map fun m => (m.name, u.typeText m.ty)⟩ := by
  have hmember : u.memberText = TypedefLine.memberText ∘ fun m => (m.name, u.typeText m.ty) := by
    funext m
    obtain ⟨_ | name, ty⟩ := m <;> rfl
  rw [typedefLine, TypedefLine.render, List.map_map, hmember]

namespace TypedefLine

variable {p : TypedefLine}

theorem toList_render (p : TypedefLine) :
    p.render.toList = '$' :: (p.name.toList ++ " = ".toList ++ ((CompilationUnit.layoutKeyword p.isUnion).toList ++
      '(' :: ([',', ' '].intercalate (p.members.map fun m => (memberText m).toList) ++ [')']))) := by
  simp only [render, String.toList_append, List.append_assoc, String.toList_intercalate, List.map_map]
  rfl

/-- **A canonical line reads back.** -/
theorem Rereadable.parse_render (h : p.Rereadable) : parse p.render = .ok p := by
  have hparen : '(' ∉ (CompilationUnit.layoutKeyword p.isUnion).toList := by
    cases p.isUnion <;> decide
  -- the line starts with the dollar sign and ends with the parenthesis
  have htrim : trim p.render.toList = p.render.toList := by
    refine trim_of_trimmed ⟨⟨'$', _, toList_render p, rfl⟩, ?_⟩
    rw [toList_render]
    refine ⟨'$' :: (p.name.toList ++ " = ".toList ++ ((CompilationUnit.layoutKeyword p.isUnion).toList ++
      '(' :: [',', ' '].intercalate (p.members.map fun m => (memberText m).toList))), ')', by simp, rfl⟩
  have hname : cutName? p.render.toList = some (p.name.toList, (CompilationUnit.layoutKeyword p.isUnion).toList ++
      '(' :: ([',', ' '].intercalate (p.members.map fun m => (memberText m).toList) ++ [')'])) := by
    have hfilled : p.name.toList.isEmpty = false := by simpa using h.filled
    rw [toList_render, cutName?, h.cut]
    simp only [hfilled, Bool.false_eq_true, if_false]
  have hbody := cutBody?_intercalate (List.forall_mem_map.2 h.parentheses)
  have hmembers : members? ([',', ' '].intercalate (p.members.map fun m => (memberText m).toList)) =
      some (p.members.map id) := members?_intercalate h.members
  unfold parse
  simp only [htrim, hname, cutAt_append hparen, CompilationUnit.isUnionKeyword?_layoutKeyword, hbody, hmembers,
    List.map_id, String.ofList_toList]

/-! ## What is read -/

/-- The steps of a line that is accepted. -/
theorem parse_eq_ok {line : String} (h : parse line = .ok p) :
    ∃ name definition keyword rest body, cutName? (trim line.toList) = some (name, definition) ∧
      cutAt '(' definition = some (keyword, rest) ∧ isUnionKeyword? keyword = some p.isUnion ∧
      cutBody? rest = some body ∧ members? body = some p.members ∧ p.name = String.ofList name := by
  unfold parse at h
  dsimp only at h
  split at h
  · cases h
  · next name definition hname =>
    split at h
    · cases h
    · next keyword rest hkeyword =>
      split at h
      · cases h
      · next isUnion hunion =>
        split at h
        · cases h
        · next body hbody =>
          split at h
          · cases h
          · next members hmembers =>
            cases h
            exact ⟨name, definition, keyword, rest, body, hname, hkeyword, hunion, hbody, hmembers, rfl⟩

/-- A member is read from a name and a type with a colon between them, or from a type alone. -/
theorem member?_cases {text : List Char} {m : Option String × String} (h : member? text = some m) :
    (∃ name ty, text = name ++ ':' :: ty ∧ ':' ∉ name ∧ name ≠ [] ∧ ty ≠ [] ∧
      m = (some (String.ofList name), String.ofList ty)) ∨ (text ≠ [] ∧ m = (none, String.ofList text)) := by
  unfold member? at h
  cases hcut : cutAt ':' text with
  | none =>
    simp only [hcut] at h
    split at h
    · cases h
    · next hne =>
      cases h
      exact Or.inr ⟨by simpa using hne, rfl⟩
  | some parts =>
    obtain ⟨name, ty⟩ := parts
    obtain ⟨rfl, hcolon⟩ := cutAt_eq_some hcut
    simp only [hcut] at h
    split at h
    · cases h
    · next hne =>
      cases h
      simp only [Bool.or_eq_true, List.isEmpty_iff, not_or] at hne
      exact Or.inl ⟨name, ty, rfl, hcolon, hne.1, hne.2, rfl⟩

/-- In the format of the printer, a member has the text that it was read from. -/
theorem toList_memberText {text : List Char} {m : Option String × String} (h : member? text = some m) :
    (memberText m).toList = text := by
  rcases member?_cases h with ⟨name, ty, rfl, -, -, -, rfl⟩ | ⟨-, rfl⟩
  · simp [memberText]
  · simp [memberText]

theorem ne_nil_of_member? {text : List Char} {m : Option String × String} (h : member? text = some m) :
    text ≠ [] := by
  rcases member?_cases h with ⟨name, ty, rfl, -⟩ | ⟨hne, -⟩
  · simp
  · exact hne

/-- Every member comes from a piece of the body. -/
theorem exists_piece {pieces : List (List Char)} {members : List (Option String × String)}
    (h : pieces.mapM (fun piece => member? (trim piece)) = some members) :
    ∀ m ∈ members, ∃ piece ∈ pieces, member? (trim piece) = some m := by
  induction pieces generalizing members with
  | nil =>
    cases h
    exact nofun
  | cons piece pieces ih =>
    simp only [List.mapM_cons, Option.pure_def, Option.bind_eq_bind, Option.bind_eq_some_iff, Option.some.injEq] at h
    obtain ⟨first, hfirst, others, hothers, rfl⟩ := h
    refine List.forall_mem_cons.2 ⟨⟨piece, List.mem_cons_self .., hfirst⟩, fun m hm => ?_⟩
    obtain ⟨p, hp, hread⟩ := ih hothers m hm
    exact ⟨p, List.mem_cons_of_mem _ hp, hread⟩

/-- The members that are read from a body stand in it, apart from white space around them. -/
theorem writes_of_members? {body : List Char} {members : List (Option String × String)}
    (h : members? body = some members) {m : Option String × String} (hm : m ∈ members) :
    Writes (memberText m).toList m ∧ (memberText m).toList ⊆ body := by
  unfold members? at h
  split at h
  · cases h
    cases hm
  · obtain ⟨piece, hpiece, hread⟩ := exists_piece h m hm
    obtain ⟨hcomma, hsub⟩ := mem_pieces hpiece
    rw [toList_memberText hread]
    refine ⟨⟨trimmed_trim (ne_nil_of_member? hread), fun hmem => hcomma (trim_subset piece hmem), hread⟩, ?_⟩
    exact List.Subset.trans (trim_subset piece) hsub

theorem cutBody?_eq_some {rest body : List Char} (h : cutBody? rest = some body) : '(' ∉ body ∧ ')' ∉ body := by
  unfold cutBody? at h
  split at h
  · split at h
    · cases h
    · next hnone =>
      cases h
      simp only [List.any_eq_true, Bool.or_eq_true, beq_iff_eq, not_exists, not_and, not_or] at hnone
      exact ⟨fun hmem => (hnone _ hmem).1 rfl, fun hmem => (hnone _ hmem).2 rfl⟩
  · cases h

theorem cutName?_eq_some {line name definition : List Char} (h : cutName? line = some (name, definition)) :
    name ≠ [] ∧ ∀ rest, cutAtText " = ".toList (name ++ " = ".toList ++ rest) = some (name, rest) := by
  unfold cutName? at h
  split at h
  · split at h
    · next n d hcut =>
      split at h
      · cases h
      · next hne =>
        cases h
        exact ⟨by simpa using hne, (cutAtText_again (by decide) hcut).2⟩
    · cases h
  · cases h

/-- The parts of a line that is accepted can be read again. -/
theorem rereadable_of_parse {line : String} (h : parse line = .ok p) : p.Rereadable := by
  obtain ⟨name, definition, keyword, rest, body, hname, -, -, hbody, hmembers, hp⟩ := parse_eq_ok h
  obtain ⟨hfilled, hcut⟩ := cutName?_eq_some hname
  obtain ⟨hopen, hclose⟩ := cutBody?_eq_some hbody
  refine ⟨by simpa [hp] using hfilled, by simpa [hp] using hcut, fun m hm => (writes_of_members? hmembers hm).1,
    fun m hm => ?_⟩
  have hsub := (writes_of_members? hmembers hm).2
  exact ⟨fun hmem => hopen (hsub hmem), fun hmem => hclose (hsub hmem)⟩

/-- A member that is read from a clear text is clear, and its name has no colon. -/
theorem clear_of_member? {text : List Char} {m : Option String × String} (h : member? text = some m)
    (hcomma : ',' ∉ text) (hopen : '(' ∉ text) (hclose : ')' ∉ text) :
    IsClear m.2 ∧ ∀ n ∈ m.1, IsClear n ∧ ':' ∉ n.toList := by
  rcases member?_cases h with ⟨name, ty, rfl, hcolon, hname, hty, rfl⟩ | ⟨hne, rfl⟩
  · simp only [List.mem_append, List.mem_cons, not_or] at hcomma hopen hclose
    refine ⟨⟨by simpa using hty, by simpa using ⟨hcomma.2.2, hopen.2.2, hclose.2.2⟩⟩, fun n hn => ?_⟩
    cases hn
    exact ⟨⟨by simpa using hname, by simpa using ⟨hcomma.1, hopen.1, hclose.1⟩⟩, by simpa using hcolon⟩
  · exact ⟨⟨by simpa using hne, by simpa using ⟨hcomma, hopen, hclose⟩⟩, nofun⟩

/-- **Reading is stable.**  Whatever line is accepted, its parts written in the format of the printer give a line that
is accepted with the same parts; and no type and no name of a member is empty or has a comma or a parenthesis, nor has a
name a colon. -/
theorem parse_render_of_parse {line : String} {p : TypedefLine} (h : parse line = .ok p) :
    parse p.render = .ok p ∧ ∀ m ∈ p.members, IsClear m.2 ∧ ∀ n ∈ m.1, IsClear n ∧ ':' ∉ n.toList := by
  have hread := rereadable_of_parse h
  refine ⟨hread.parse_render, fun m hm => ?_⟩
  obtain ⟨hopen, hclose⟩ := hread.parentheses m hm
  exact clear_of_member? (hread.members m hm).reads (hread.members m hm).comma hopen hclose

end TypedefLine

namespace Sample

/-- A line with white space of several kinds, a name with signs and a parenthesis in it, blanks around colons and a
member with two colons. -/
def loose : String := "\t$a =b ($ = uniondef( x y : i32 ,\u3000p:q:r,\n$other* ) \u2028"

/-- The parts of `loose`. -/
def looseParts : TypedefLine :=
  ⟨"a =b ($", true, [(some "x y ", " i32"), (some "p", "q:r"), (none, "$other*")]⟩

theorem loose_rereads :
    TypedefLine.parse loose = .ok looseParts ∧
      looseParts.render = "$a =b ($ = uniondef(x y : i32, p:q:r, $other*)" ∧
      TypedefLine.parse looseParts.render = .ok looseParts ∧
      ∀ m ∈ looseParts.members, IsClear m.2 ∧ ∀ n ∈ m.1, IsClear n ∧ ':' ∉ n.toList := by
  have hparse : TypedefLine.parse loose = .ok looseParts := by decide +kernel
  exact ⟨hparse, by decide +kernel, TypedefLine.parse_render_of_parse hparse⟩

end Sample

end BlockForm

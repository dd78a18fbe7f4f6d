import Cascade.Proofs.FlatSheets
import Cascade.Proofs.RoundTrip

/-!
# Checking flat stylesheets

Whether every piece of flat rules is read back by itself can be computed.  The text of a
piece is read as tokens, the tokens are grouped, and what they are read as is written once
more.

**Method.**  `groupFrom` groups tokens up to a bracket that closes; what it finds is
`Grouped`.  Each kind of piece has a function that reads and writes its tokens, and the
sheet is checked rule by rule, as it is laid out (`areSettled`).

**Results.**
* `Grouped.of_grouped?`: what is found is the groups of the tokens.
* `piece_of_written`: which texts are pieces.
* `FlatSheet.of_settled`: rules that pass the check are flat.
-/

namespace Cascade
open Lexer Output

/-! ## Grouping tokens -/

/-- The group between the two brackets. -/
def closedGroup (opener : Token) (vs : List Value) (closer : Token) : Value :=
  if opener.type = .function then callOf opener vs closer else .block opener vs (some closer)

/-- The groups of the tokens up to a bracket that closes, and the tokens from there on; none where
brackets do not match, and where a variable is used. -/
def groupFrom : Nat → List Token → Option (List Value × List Token)
  | 0, _ => none
  | _ + 1, [] => some ([], [])
  | n + 1, t :: ts =>
    if t.type.isCloser then
      some ([], t :: ts)
    else
      match t.type.closer? with
      | none =>
        if t.type = .eof ∨ t.isDelim "$" ∧ ts.head?.any (·.type == .ident) then
          none
        else
          (groupFrom n ts).map fun found => (.token t :: found.1, found.2)
      | some closer =>
        (groupFrom n ts).bind fun inner =>
          match inner.2 with
          | [] => none
          | u :: us =>
            if u.type = closer then
              (groupFrom n us).map fun found => (closedGroup t inner.1 u :: found.1, found.2)
            else
              none

/-- The groups of the tokens, if brackets match and no variable is used. -/
def grouped? (ts : List Token) : Option (List Value) :=
  (groupFrom (ts.length + 1) ts).bind fun found => if found.2.isEmpty then some found.1 else none

theorem Grouped.closedGroup {opener closer : Token} {inner ts : List Token} {us vs : List Value}
    (h : opener.type.closer? = some closer.type) (hinner : Grouped inner us) (hts : Grouped ts vs) :
    Grouped (opener :: (inner ++ closer :: ts)) (Cascade.closedGroup opener us closer :: vs) := by
  unfold Cascade.closedGroup
  rcases TokenType.closer?_cases h with hpartner | ⟨hfunction, hparen⟩
  · have hother : opener.type ≠ .function := by
      intro hfunction
      rw [hfunction] at hpartner
      cases hpartner
    rw [if_neg hother]
    exact .block hpartner hinner hts
  · rw [if_pos hfunction]
    exact .call hfunction hparen hinner hts

theorem exists_grouped_of_groupFrom {n : Nat} {ts rest : List Token} {vs : List Value}
    (h : groupFrom n ts = some (vs, rest)) :
    ∃ front, ts = front ++ rest ∧ Grouped front vs := by
  induction n generalizing ts rest vs with
  | zero => cases h
  | succ n ih =>
      cases ts with
      | nil =>
          cases h
          exact ⟨[], rfl, .nil⟩
      | cons t ts =>
          rw [groupFrom] at h
          split at h
          · cases h
            exact ⟨[], rfl, .nil⟩
          · next hcloses =>
              split at h
              · next hopens =>
                  split at h
                  · cases h
                  · next hsingle =>
                      obtain ⟨⟨us, rest'⟩, hfound, hsame⟩ := Option.map_eq_some_iff.mp h
                      cases hsame
                      obtain ⟨front, rfl, hfront⟩ := ih hfound
                      rw [not_or, not_and] at hsingle
                      have ht : t.IsSingle := ⟨hopens, by simpa using hcloses, hsingle.1⟩
                      refine ⟨t :: front, rfl, .single ht ?_ hfront⟩
                      intro hdollar u hu
                      obtain ⟨us, rfl⟩ := List.head?_eq_some_iff.mp hu
                      simpa using hsingle.2 hdollar
              · next closer hopens =>
                  obtain ⟨⟨us, behind⟩, hinner, hmatch⟩ := Option.bind_eq_some_iff.mp h
                  obtain ⟨inner, rfl, hgrouped⟩ := ih hinner
                  cases behind with
                  | nil => cases hmatch
                  | cons u behind =>
                      dsimp only at hmatch
                      split at hmatch
                      · next htype =>
                          obtain ⟨⟨ws, rest'⟩, hfound, hsame⟩ := Option.map_eq_some_iff.mp hmatch
                          cases hsame
                          obtain ⟨front, rfl, hfront⟩ := ih hfound
                          refine ⟨t :: (inner ++ u :: front), by simp, .closedGroup ?_ hgrouped hfront⟩
                          rw [hopens, htype]
                      · cases hmatch

/-- What is found is the groups of the tokens. -/
theorem Grouped.of_grouped? {ts : List Token} {vs : List Value} (h : grouped? ts = some vs) :
    Grouped ts vs := by
  obtain ⟨⟨us, rest⟩, hfound, hends⟩ := Option.bind_eq_some_iff.mp h
  obtain ⟨front, rfl, hfront⟩ := exists_grouped_of_groupFrom hfound
  dsimp only at hends
  split at hends
  · next hempty =>
      cases hends
      rwa [List.isEmpty_iff.mp hempty, List.append_nil]
  · cases hends

/-! ## Texts of pieces -/

theorem head?_trimTokens (ts : List Token) :
    (trimTokens ts).head?.any Token.isWhitespace = false := by
  unfold trimTokens
  cases h : ts.dropWhile Token.isWhitespace with
  | nil => rfl
  | cons t us =>
      have ht : t.isWhitespace = false := by
        simpa [h] using head?_dropWhile_any Token.isWhitespace ts
      rw [rdropWhile_cons, ht]
      simp [ht]

theorem getLast?_trimTokens (ts : List Token) :
    (trimTokens ts).getLast?.any Token.isWhitespace = false := by
  by_cases hne : trimTokens ts = []
  · rw [hne]
    rfl
  · rw [List.getLast?_eq_some_getLast hne, Option.any_some]
    exact Bool.eq_false_iff.mpr (List.rdropWhile_last_not _ _ hne)

/-- The tokens of a text by itself, with single spaces. -/
def pieceTokens (text : String) : List Token :=
  (trimTokens (contents text)).map Token.spaced

/-- A text without backslashes and comments that is written as it stands is a piece. -/
theorem piece_of_written {text : String} (hcomment : commentFree text = true)
    (hbackslash : '\\' ∉ text.toList) (hbad : ∀ t ∈ tokenize text, t.isBad = false)
    (hwritten : formatValues false (valuesOf (tokenize text)) = text) {Reads : List Token → Prop}
    (h : Reads (pieceTokens text)) :
    Piece text.toList (pieceTokens text) Reads := by
  have htidy := tidy_contents hcomment hbackslash hbad
  refine ⟨?_, htidy.readable, htidy.joined, ?_, ?_, h⟩
  · have htext := congrArg String.toList hwritten
    rw [formatValues_trimTokens, String.toList_ofList] at htext
    rw [pieceTokens, textOf_map_spaced, htext]
  · rw [pieceTokens, List.head?_map, Option.any_map]
    exact head?_trimTokens (contents text)
  · rw [pieceTokens, List.getLast?_map, Option.any_map]
    exact getLast?_trimTokens (contents text)

/-- The text has neither backslashes nor comments, and it is written as it stands. -/
def isPiece (text : List Char) : Bool :=
  commentFree (String.ofList text) && !text.contains '\\' &&
    (tokenize (String.ofList text)).all (fun t => !t.isBad) &&
      formatValues false (valuesOf (tokenize (String.ofList text))) == String.ofList text

theorem Piece.of_isPiece {text : List Char} (htext : isPiece text = true)
    {Reads : List Token → Prop} (h : Reads (pieceTokens (String.ofList text))) :
    Piece text (pieceTokens (String.ofList text)) Reads := by
  simp only [isPiece, Bool.and_eq_true, Bool.not_eq_true', List.contains_eq_mem,
    decide_eq_false_iff_not, List.all_eq_true, beq_iff_eq] at htext
  obtain ⟨⟨⟨hcomment, hbackslash⟩, hbad⟩, hwritten⟩ := htext
  have hpiece := piece_of_written hcomment (by rwa [String.toList_ofList]) hbad hwritten h
  rwa [String.toList_ofList] at hpiece

/-! ## Reading and writing pieces -/

/-- The text names something. -/
def isNameText (name : String) : Bool :=
  name != "" && name.toList.all fun c => c.toNat != 0

theorem IsNameText.of_isNameText {name : String} (h : isNameText name = true) :
    IsNameText name := by
  rw [isNameText, Bool.and_eq_true, List.all_eq_true, bne_iff_ne] at h
  exact ⟨fun c hc => bne_iff_ne.mp (h.2 c hc), h.1⟩

theorem eq_ok_of_toOption {ε α : Type} {x : Except ε α} {a : α} (h : x.toOption = some a) :
    x = .ok a := by
  cases x with
  | error e => cases h
  | ok b => exact congrArg Except.ok (Option.some.inj h)

section Written

variable {minify : Bool} {kind : BodyKind} {ts : List Token}

/-- What is written for the tokens as the head of a rule in a body of the kind. -/
def writtenHead? (minify : Bool) (kind : BodyKind) (ts : List Token) : Option (List Char) :=
  (grouped? ts).bind fun vs =>
    if (∀ v ∈ (vs.dropWhile Value.isWhitespace).head?, v.firstToken.type ≠ .cdo ∧
        v.firstToken.type ≠ .cdc ∧ v.firstToken.type ≠ .atKeyword) ∧
        ∀ v ∈ vs, v.firstToken.type ≠ .openBrace then
      match kind with
      | .rules =>
        (Selector.parse (trimWhitespace vs)).toOption.map fun list =>
          joinSelectors minify (resolveSelectors minify [] list)
      | .keyframes => some (valuesText minify (trimWhitespace vs))
      | .declarations => none
    else
      none

theorem readsHead_of_written {head : List Char} (h : writtenHead? minify kind ts = some head) :
    ReadsHead minify kind head ts := by
  obtain ⟨vs, hvs, hhead⟩ := Option.bind_eq_some_iff.mp h
  split at hhead
  · next hends =>
      refine ⟨vs, ⟨.of_grouped? hvs, hends.1, hends.2⟩, ?_⟩
      cases kind with
      | rules =>
          obtain ⟨list, hlist, htext⟩ := Option.map_eq_some_iff.mp hhead
          exact ⟨list, eq_ok_of_toOption hlist, htext⟩
      | keyframes => exact Option.some.inj hhead
      | declarations => cases hhead
  · cases hhead

/-- What is written for the tokens as the value of a declaration, and whether it is important. -/
def writtenTail? (minify : Bool) (ts : List Token) : Option (List Char × Bool) :=
  (grouped? ts).bind fun vs =>
    if ∀ v ∈ vs, v.firstToken.type ≠ .semicolon then
      (splitImportant (trimWhitespace vs)).toOption.map fun split =>
        (valuesText minify split.1, split.2)
    else
      none

theorem readsTail_of_written {d : Declaration}
    (h : writtenTail? minify ts = some (valuesText minify d.value, d.important)) :
    d.ReadsTail minify ts := by
  obtain ⟨vs, hvs, htail⟩ := Option.bind_eq_some_iff.mp h
  split at htail
  · next hends =>
      obtain ⟨⟨value, important⟩, hsplit, hsame⟩ := Option.map_eq_some_iff.mp htail
      obtain ⟨htext, rfl⟩ := Prod.mk.inj hsame
      exact ⟨vs, value, .of_grouped? hvs, hends, eq_ok_of_toOption hsplit, htext⟩
  · cases htail

/-- What is written for the tokens as the prelude of an at-rule. -/
def writtenPrelude? (minify : Bool) (ts : List Token) : Option (List Char) :=
  (grouped? ts).bind fun vs =>
    if (∀ v ∈ vs, v.firstToken.type ≠ .semicolon ∧ v.firstToken.type ≠ .openBrace) ∧
        ∀ t ∈ ts.head?, t.isWhitespace = false ∧ t.isDelim "=" = false then
      some (valuesText minify (trimWhitespace vs))
    else
      none

theorem readsPrelude_of_written {text : List Char} (h : writtenPrelude? minify ts = some text) :
    ReadsPrelude minify text ts := by
  obtain ⟨vs, hvs, hprelude⟩ := Option.bind_eq_some_iff.mp h
  split at hprelude
  · next hends => exact ⟨vs, .of_grouped? hvs, hends.1, hends.2, Option.some.inj hprelude⟩
  · cases hprelude

end Written

/-! ## Settled rules -/

/-- The head of a rule is not empty, and read back it is written as it is. -/
def settlesHead (minify : Bool) (kind : BodyKind) (head : List Char) : Bool :=
  head != [] && isPiece head &&
    writtenHead? minify kind (pieceTokens (String.ofList head)) == some head

/-- Read back the value of the declaration is written as it is. -/
def Declaration.isSettled (minify : Bool) (d : Declaration) : Bool :=
  isNameText d.name.text && isPiece (d.tailText minify) &&
    writtenTail? minify (pieceTokens (String.ofList (d.tailText minify))) ==
      some (valuesText minify d.value, d.important)

theorem Declaration.Flat.of_settled {minify : Bool} {d : Declaration} (h : d.isSettled minify = true) :
    d.Flat minify := by
  simp only [Declaration.isSettled, Bool.and_eq_true, beq_iff_eq] at h
  obtain ⟨⟨hname, hpiece⟩, htail⟩ := h
  exact ⟨.of_isNameText hname, _, .of_isPiece hpiece (readsTail_of_written htail)⟩

/-- The name in the text of an at-rule. -/
def atName (head : List Char) : String :=
  ((tokenize (String.ofList head)).head?.map (·.text)).getD ""

/-- The prelude in the text of an at-rule, behind the name and a space. -/
def atPrelude (head : List Char) : List Char :=
  head.drop ((escapeIdent (atName head).toList).length + 2)

/-- The text is that of a name and a prelude, and read back the prelude is written as it is. -/
def settlesAtText (minify : Bool) (head : List Char) : Bool :=
  isNameText (atName head) && Text.foldCase (atName head) != "mixin" &&
    Text.foldCase (atName head) != "include" && atText (atName head) (atPrelude head) == head &&
    isPiece (atPrelude head) &&
      writtenPrelude? minify (pieceTokens (String.ofList (atPrelude head))) == some (atPrelude head)

/-- The parts of the text of an at-rule that passes the check. -/
theorem exists_of_settlesAtText {minify : Bool} {head : List Char}
    (h : settlesAtText minify head = true) :
    IsAtName (atName head) ∧ ∃ prelude ts, atText (atName head) prelude = head ∧
      Piece prelude ts (ReadsPrelude minify prelude) := by
  simp only [settlesAtText, Bool.and_eq_true, bne_iff_ne, beq_iff_eq] at h
  obtain ⟨⟨⟨⟨⟨hname, hmixin⟩, hinclusion⟩, htext⟩, hpiece⟩, hprelude⟩ := h
  exact ⟨⟨.of_isNameText hname, hmixin, hinclusion⟩, _, _, htext,
    .of_isPiece hpiece (readsPrelude_of_written hprelude)⟩

mutual

/-- The pieces of a rule in a body of a kind are read back; the flag says whether nothing is written
behind it. -/
def Output.Flat.isSettled (minify : Bool) (kind : BodyKind) (void : Bool) : Flat → Bool
  | .rule head ds =>
    (!minify || kind != .rules || !ds.isEmpty) && settlesHead minify kind head &&
      ds.all (Declaration.isSettled minify)
  | .statement head => settlesAtText minify head
  | .group head body =>
    settlesAtText minify head && areSettled minify (kind.inside (atName head)) body
  | .declarations ds last =>
    kind == .declarations && (!minify || last == void) && ds.all (Declaration.isSettled minify)

/-- The pieces of the rules of a body of a kind are read back. -/
def areSettled (minify : Bool) (kind : BodyKind) : List Flat → Bool
  | [] => true
  | f :: fs => f.isSettled minify kind (fs.all Flat.isVoid) && areSettled minify kind fs

end

mutual

theorem FlatSheet.cons_of_settled {minify : Bool} {kind : BodyKind} {fs : List Flat} :
    ∀ f : Flat, f.isSettled minify kind (fs.all Flat.isVoid) = true → FlatSheet minify kind fs →
      FlatSheet minify kind (f :: fs)
  | .rule head ds => by
      intro h hfs
      simp only [Flat.isSettled, settlesHead, Bool.and_eq_true, beq_iff_eq, bne_iff_ne,
        List.all_eq_true] at h
      obtain ⟨⟨hempty, ⟨hne, hpiece⟩, hhead⟩, hds⟩ := h
      refine .rule hne ?_ (.of_isPiece hpiece (readsHead_of_written hhead))
        (fun d hd => .of_settled (hds d hd)) hfs
      rintro rfl rfl rfl
      cases hempty
  | .statement head => by
      intro h hfs
      rw [Flat.isSettled] at h
      obtain ⟨hname, prelude, ts, hhead, hpiece⟩ := exists_of_settlesAtText h
      rw [← hhead]
      exact .statement hname hpiece hfs
  | .group head body => by
      intro h hfs
      rw [Flat.isSettled, Bool.and_eq_true] at h
      obtain ⟨hname, prelude, ts, hhead, hpiece⟩ := exists_of_settlesAtText h.1
      have hbody := FlatSheet.of_settled body h.2
      rw [← hhead]
      exact .group hname hpiece hbody hfs
  | .declarations ds last => by
      intro h hfs
      simp only [Flat.isSettled, Bool.and_eq_true, beq_iff_eq, List.all_eq_true] at h
      obtain ⟨⟨rfl, hlast⟩, hds⟩ := h
      refine .declarations ?_ (fun d hd => .of_settled (hds d hd)) hfs
      rintro rfl
      simpa using hlast

/-- Rules that pass the check are flat. -/
theorem FlatSheet.of_settled {minify : Bool} {kind : BodyKind} :
    ∀ fs : List Flat, areSettled minify kind fs = true → FlatSheet minify kind fs
  | [] => fun _ => .nil
  | f :: fs => by
      intro h
      rw [areSettled, Bool.and_eq_true] at h
      exact .cons_of_settled f h.1 (.of_settled fs h.2)

end

end Cascade

import Cascade.Compile
import Cascade.Proofs.Continuation
import Cascade.Proofs.FlatReading
import Cascade.Proofs.Headers
import Cascade.Proofs.SettledSheets

/-!
# Reading and writing what was written

Values that were written are left as they are when they are read and written once
more.  So are stylesheets in both forms, behind any header, whose selectors, preludes and
values are: nothing is read differently for what stands around it.  Other stylesheets are
not: the declarations of an at-rule inside a style rule are wrapped in the selectors of
that rule, whether or not the at-rule can hold a rule.

**Method.**  The text of a stylesheet is followed to its tokens, behind its header
(`exists_tokenize_sheetText`), and these are read as rules that are written alike
(`Read.takes_flats`).  Whether the pieces of a stylesheet are left as they are is computed
(`compilesToSettled`).

**Results.**
* `formatValues_fixpoint`: what is written of the tokens of a source is a fixpoint.
* `Sheet.formatRules_of_flat`: flat rules that were written are read and written once more.
* `compile_compiled`: so is what was compiled, where every piece of it is by itself.
* `compile_not_fixpoint`: what is written of a stylesheet is not always one.
-/

namespace Cascade
open Lexer Output

/-! ## Values -/

/-- Trimmed tokens have no whitespace left at their ends. -/
theorem trimTokens_trimTokens (ts : List Token) :
    trimTokens (trimTokens ts) = trimTokens ts := by
  have hfront : (trimTokens ts).dropWhile Token.isWhitespace = trimTokens ts := by
    have hhead := head?_trimTokens ts
    cases h : trimTokens ts with
    | nil => rfl
    | cons t us =>
        rw [h] at hhead
        exact List.dropWhile_cons_of_neg (by simpa using hhead)
  rw [trimTokens, hfront]
  exact List.rdropWhile_idempotent _ _

/-- Tidy tokens, written and read back, are the tokens that they were. -/
theorem Tidy.contents_text {ts : List Token} (h : Tidy ts) :
    (contents (String.ofList (textOf ts))).map Token.unplaced =
      (ts.map Token.spaced).map Token.unplaced := by
  refine contents_unplaced (fun t ht => (h.readable t ht).type_ne_eof) ?_
  rw [h.tokenize]
  simp [Token.spaced, Token.unplaced]

/-- Tokens that were written and read back are written in the same way. -/
theorem formatValues_fixpoint {source : String} (hcomment : commentFree source = true)
    (hbackslash : '\\' ∉ source.toList) (hbad : ∀ t ∈ tokenize source, t.isBad = false) :
    formatValues false (valuesOf (tokenize (formatValues false (valuesOf (tokenize source))))) =
      formatValues false (valuesOf (tokenize source)) := by
  have hread := trimTokens_spaced_congr (tidy_contents hcomment hbackslash hbad).contents_text
  rw [trimTokens_map (f := Token.spaced) (fun _ => rfl), trimTokens_trimTokens] at hread
  rw [formatValues_trimTokens, formatValues_trimTokens, ← textOf_map_spaced, hread,
    textOf_map_spaced, textOf_map_spaced]

/-! ## Flat stylesheets -/

section FlatSheets

variable {style : Style} {fs : List Flat}

/-- Behind a comment the lexer goes on as it would have started without one, at another place. -/
theorem Lexer.exists_tokens_comment {body rest : List Char} (hbody : ¬ commentEnd <:+: body)
    (hrest : skipComments ⟨rest, .start⟩ = ⟨rest, .start⟩) :
    ∃ p n, rest.length ≤ n ∧
      tokens ('/' :: '*' :: (body ++ '*' :: '/' :: rest)) = tokensFrom n ⟨rest, p⟩ := by
  obtain ⟨cs, hcs⟩ : ∃ cs, '/' :: '*' :: (body ++ '*' :: '/' :: rest) = cs := ⟨_, rfl⟩
  have hchars : (skipComments ⟨cs, .start⟩).chars = rest := by
    rw [← hcs, skipComments_comment hbody, hrest]
  have hlength : cs.length = body.length + rest.length + 3 + 1 := by
    rw [← hcs]
    simp
    omega
  obtain ⟨-, -, -, hstop⟩ := skipComments_behind ⟨cs, .start⟩
  refine ⟨(skipComments ⟨cs, .start⟩).position, cs.length, by omega, ?_⟩
  rw [hcs, tokens, hlength, ← hchars]
  change tokensFrom _ ⟨cs, .start⟩ = tokensFrom _ (skipComments ⟨cs, .start⟩)
  rw [tokensFrom, tokensFrom, skipComments_of_not_startsComment hstop]

/-- Behind a header a text has the tokens that it has wherever it stands. -/
theorem exists_tokenize_header (style : Style) {text : List Char} {P : List Token → Prop}
    (h : ∀ lead : List Char, (∀ c ∈ lead, isBlank c = true) → Continues (lead ++ text) P) :
    ∃ us q, P us ∧
      tokenize (String.ofList (headerText style ++ text)) = us ++ [⟨.eof, "", q, .none⟩] := by
  by_cases hheader : style.header = ""
  · obtain ⟨us, hus, hP⟩ := h [] (List.forall_mem_nil _) .start
    obtain ⟨q, hq⟩ := hus.tokenize
    refine ⟨us, q, hP, ?_⟩
    rw [headerText, if_pos hheader]
    exact hq
  · have hbody := not_infix_normalize (not_infix_headerBody style.header)
    have hline := h (lineEnd style) fun _ hc => isBlank_of_mem_lineEnd hc
    obtain ⟨_, hspaced, -⟩ := hline .start
    have hnormal : normalize (headerText style ++ text) =
        '/' :: '*' :: (normalize (headerBody style.header) ++ '*' :: '/' :: (lineEnd style ++ text)) := by
      rw [headerText_eq style hheader, List.cons_append, List.cons_append, List.append_assoc,
        List.cons_append, List.cons_append, normalize_cons (by decide), normalize_cons (by decide),
        normalize_append_of_ne (by decide), normalize_cons (by decide), normalize_cons (by decide)]
      exact congrArg (fun cs => '/' :: '*' :: (normalize (headerBody style.header) ++ '*' :: '/' :: cs))
        (normalize_of_isNormal hspaced.isNormal)
    have hstop : skipComments ⟨lineEnd style ++ text, .start⟩ = ⟨lineEnd style ++ text, .start⟩ :=
      skipComments_of_not_startsComment hspaced.not_startsComment
    obtain ⟨p, n, hn, htokens⟩ := exists_tokens_comment hbody hstop
    obtain ⟨us, hus, hP⟩ := hline p
    obtain ⟨q, hq⟩ := hus.tokensFrom hn
    refine ⟨us, q, hP, ?_⟩
    rw [tokenize, String.toList_ofList, hnormal, htokens]
    exact hq

/-- The text of a flat stylesheet has the tokens of its rules. -/
theorem exists_tokenize_sheetText (hfs : FlatSheet style.minify .rules fs) :
    ∃ ts q, SheetTokens style.minify .rules ts fs ∧
      tokenize (String.ofList (sheetText style fs)) = ts ++ [⟨.eof, "", q, .none⟩] := by
  have hshort : style.minify = true → lineEnd style = [] := fun hminify => by
    rw [lineEnd, if_pos hminify]
  have hfills := fills_flats hfs (lineEnd style) 0 (fun _ hc => isBlank_of_mem_lineEnd hc) hshort
  have hmargin : Margin style .rules [] [] :=
    { blank := List.forall_mem_nil _
      short := fun _ => rfl
      visible := rfl
      closes := fun h => BodyKind.noConfusion h }
  have hall (lead : List Char) (hlead : ∀ c ∈ lead, isBlank c = true) :
      Continues (lead ++ spreadText style (lineEnd style) 0 fs)
        (SheetTokens style.minify .rules · fs) := by
    have hend : Continues [] (· = []) := fun p => ⟨[], .nil, rfl⟩
    have hrun := hfills _ lead [] [] hlead hmargin hend
    rw [List.append_nil, List.append_nil] at hrun
    refine hrun.mono ?_
    rintro _ ⟨inner, us, rfl, hinner, rfl⟩
    rwa [List.append_nil]
  exact exists_tokenize_header style hall

theorem Shown.mapM_flatten {es : List Entry} (h : Shown style.minify .rules es fs) :
    ∃ gs : List Flat, es.mapM (flatten style.minify []) = .ok (gs.map fun g => [g]) ∧
      gs.map (flatText style 0) = fs.map (flatText style 0) := by
  generalize hkind : BodyKind.rules = kind at h
  induction h with
  | nil => exact ⟨[], rfl, rfl⟩
  | @entry kind e f es fs he _ ih =>
      obtain ⟨-, g, hflat, htext⟩ := he
      obtain ⟨gs, hrun, htexts⟩ := ih hkind
      refine ⟨g :: gs, ?_, ?_⟩
      · rw [List.mapM_cons, hflat, hrun]
        rfl
      · rw [List.map_cons, List.map_cons, htexts, htext style 0 rfl]
  | ended | declaration => cases hkind

namespace Sheet

/-- Flat rules that were written are read as entries that are written in the same way, unless reading
is cut short. -/
theorem formatRules_of_flat (hfs : FlatSheet style.minify .rules fs) (budget : Nat)
    (limits : Limits) (file : String) :
    (∃ stop, (parseTokens budget limits file (tokenize (String.ofList (sheetText style fs)))).1 =
        .error stop ∧ stop.IsCut) ∨
      ∃ sheet, (parseTokens budget limits file (tokenize (String.ofList (sheetText style fs)))).1 =
          .ok sheet ∧ formatRules style sheet.rules = .ok (String.ofList (sheetText style fs)) := by
  obtain ⟨ts, q, hts, htokens⟩ := exists_tokenize_sheetText hfs
  obtain ⟨es, hshown, htakes⟩ := Read.takes_flats hts
  obtain ⟨gs, hflats, htexts⟩ := hshown.mapM_flatten
  have hitems : (Reader.ofTokens (ts ++ [⟨.eof, "", q, .none⟩]) limits).cursor.items =
      Read.tokenItems ts := by
    rw [items_ofTokens, itemsOf, valuesOf_append, valuesOf_of_balanced hts.balanced]
    simp [valuesOf, Read.tokenItems, Function.comp_def]
  have hformat : formatRules style es = .ok (String.ofList (sheetText style fs)) := by
    rw [formatRules, hflats]
    change Except.ok (String.ofList (sheetText style (gs.map fun g => [g]).flatten)) = _
    rw [show (gs.map fun g => [g]).flatten = gs by simp [← List.flatMap_def], sheetText, sheetText,
      htexts]
  have hread := htakes budget _ [] hitems fun _ => rfl
  rw [htokens, parseTokens, run]
  rcases hread with ⟨stop, r, hrun, hcut⟩ | ⟨r, hrun, -, -⟩
  · refine .inl ⟨locate file stop, ?_, ?_⟩
    · rw [show Read.ruleList budget [] _ = _ from hrun]
    · cases stop with
      | exhausted => trivial
      | fault d =>
          change (d.withFile file).kind = _
          unfold Diagnostic.withFile
          split <;> exact hcut
  · refine .inr ⟨⟨file, es⟩, ?_, hformat⟩
    rw [show Read.ruleList budget [] _ = _ from hrun]
    rfl

end Sheet

end FlatSheets

/-! ## Compiled stylesheets -/

section Compiled

variable {options : CompileOptions} {file source text : String}

/-- What is compiled is what is read, written. -/
theorem compile_eq_bind (options : CompileOptions) (file source : String) :
    compile options file source =
      (Sheet.parse options.limits file source).1.mapError CompileError.stopped >>= fun sheet =>
        (formatRules options.style sheet.rules).mapError (CompileError.misplaced file) := by
  unfold compile compileTraced Sheet.parse
  dsimp only
  generalize Sheet.parseTokens defaultBudget options.limits file (tokenize source) = outcome
  obtain ⟨read, events⟩ := outcome
  cases read with
  | error stop => rfl
  | ok sheet =>
      dsimp only
      change _ = (formatRules options.style sheet.rules).mapError _
      cases formatRules options.style sheet.rules <;> rfl

theorem exists_flats_of_compile (h : compile options file source = .ok text) :
    ∃ sheet flats, (Sheet.parse options.limits file source).1 = .ok sheet ∧
      sheet.rules.mapM (flatten options.style.minify []) = .ok flats ∧
        text = String.ofList (sheetText options.style flats.flatten) := by
  rw [compile_eq_bind] at h
  unfold formatRules at h
  cases hsheet : (Sheet.parse options.limits file source).1 with
  | error stop =>
      rw [hsheet] at h
      cases h
  | ok sheet =>
      rw [hsheet] at h
      change Except.mapError _ ((sheet.rules.mapM (flatten options.style.minify [])).map _) = _ at h
      cases hflats : sheet.rules.mapM (flatten options.style.minify []) with
      | error entry =>
          rw [hflats] at h
          cases h
      | ok flats =>
          rw [hflats] at h
          cases h
          exact ⟨sheet, flats, rfl, hflats, rfl⟩

/-- What was compiled is compiled to itself once more, in both forms, where every piece of its rules is
read back by itself, unless a limit cuts this short: variables may be replaced by values in more
brackets than a source may nest. -/
theorem compile_compiled (h : compile options file source = .ok text)
    (hflat : ∀ sheet flats, (Sheet.parse options.limits file source).1 = .ok sheet →
      sheet.rules.mapM (flatten options.style.minify []) = .ok flats →
      FlatSheet options.style.minify .rules flats.flatten)
    (file' : String) :
    compile options file' text = .ok text ∨
      ∃ stop, compile options file' text = .error (.stopped stop) ∧ stop.IsCut := by
  obtain ⟨sheet, flats, hsheet, hflats, rfl⟩ := exists_flats_of_compile h
  have hfs := hflat sheet flats hsheet hflats
  rcases Sheet.formatRules_of_flat hfs defaultBudget options.limits file' with
    ⟨stop, hread, hcut⟩ | ⟨sheet, hread, hformat⟩
  · refine .inr ⟨stop, ?_, hcut⟩
    rw [compile_eq_bind, Sheet.parse, hread]
    rfl
  · refine .inl ?_
    rw [compile_eq_bind, Sheet.parse, hread]
    change (formatRules options.style sheet.rules).mapError _ = _
    rw [hformat]
    rfl

end Compiled

/-- Every piece of what the source is compiled to is read back by itself. -/
def compilesToSettled (options : CompileOptions) (file source : String) : Bool :=
  (Sheet.parse options.limits file source).1.toOption.all fun sheet =>
    (sheet.rules.mapM (flatten options.style.minify [])).toOption.all fun flats =>
      areSettled options.style.minify .rules flats.flatten

theorem flat_of_compilesToSettled {options : CompileOptions} {file source : String}
    (h : compilesToSettled options file source = true) (sheet : Sheet) (flats : List (List Flat))
    (hsheet : (Sheet.parse options.limits file source).1 = .ok sheet)
    (hflats : sheet.rules.mapM (flatten options.style.minify []) = .ok flats) :
    FlatSheet options.style.minify .rules flats.flatten := by
  refine .of_settled _ ?_
  simpa [compilesToSettled, hsheet, hflats, Except.toOption] using h

/-- A style rule inside another one, and one inside an at-rule. -/
def nestedRules : String :=
  "a \x7b & b, &:not(.c) \x7b d: e(1, 2) !important; \x7d \x7d @media (x: y) \x7b f > g \x7b h: i; \x7d \x7d"

/-- The rules side by side, but in the at-rule. -/
def flatRules : String :=
  "a b, a:not(.c) \x7b\n  d: e(1, 2) !important;\n\x7d\n\n" ++
    "@media (x: y) \x7b\n  f > g \x7b\n    h: i;\n  \x7d\n\x7d\n"

/-- The same in the short form. -/
def shortRules : String :=
  "a b,a:not(.c)\x7bd:e(1,2)!important\x7d@media (x:y)\x7bf>g\x7bh:i\x7d\x7d"

/-- The short form is asked for. -/
def shortForm : CompileOptions :=
  { style := { minify := true } }

theorem compile_compiled_nestedRules :
    (compilesToSettled {} "" nestedRules = true ∧ compile {} "" nestedRules = .ok flatRules ∧
      compile {} "" flatRules = .ok flatRules) ∧
    compilesToSettled shortForm "" nestedRules = true ∧
      compile shortForm "" nestedRules = .ok shortRules ∧
        compile shortForm "" shortRules = .ok shortRules := by
  have hsettled : compilesToSettled {} "" nestedRules = true := by
    decide +kernel
  have hlong : compile {} "" nestedRules = .ok flatRules :=
    eq_ok_of_toOption (by decide +kernel)
  have hshortSettled : compilesToSettled shortForm "" nestedRules = true := by
    decide +kernel
  have hshort : compile shortForm "" nestedRules = .ok shortRules :=
    eq_ok_of_toOption (by decide +kernel)
  refine ⟨⟨hsettled, hlong, ?_⟩, hshortSettled, hshort, ?_⟩
  · rcases compile_compiled hlong (flat_of_compilesToSettled hsettled) "" with
      hsame | ⟨stop, hstop, -⟩
    · exact hsame
    · have hok : (compile {} "" flatRules).isOk = true := by
        decide +kernel
      rw [hstop] at hok
      cases hok
  · rcases compile_compiled hshort (flat_of_compilesToSettled hshortSettled) "" with
      hsame | ⟨stop, hstop, -⟩
    · exact hsame
    · have hok : (compile shortForm "" shortRules).isOk = true := by
        decide +kernel
      rw [hstop] at hok
      cases hok

/-- A rule for fonts inside a style rule. -/
def nestedFontFace : String :=
  "a \x7b @font-face \x7b font-family: x; \x7d \x7d"

/-- The rule for fonts beside the style rule, with a style rule inside, which it cannot hold. -/
def wrappedFontFace : String :=
  "@font-face \x7b\n  a \x7b\n    font-family: x;\n  \x7d\n\x7d\n"

/-- A stylesheet may be compiled to one that cannot be compiled. -/
theorem compile_not_fixpoint :
    compile {} "" nestedFontFace = .ok wrappedFontFace ∧
      ∀ text, compile {} "" wrappedFontFace ≠ .ok text := by
  have hfirst : (compile {} "" nestedFontFace).toOption = some wrappedFontFace := by
    decide +kernel
  have hsecond : (compile {} "" wrappedFontFace).toOption = none := by
    decide +kernel
  refine ⟨eq_ok_of_toOption hfirst, fun text hrun => ?_⟩
  simp [hrun, Except.toOption] at hsecond

end Cascade

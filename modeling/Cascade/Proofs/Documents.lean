import Cascade.Proofs.WrittenLines
import Mathlib.Data.List.DropRight

/-!
# What tidying a document keeps

Tidying a document rewrites the stylesheets that can be read.  All other lines of the
document should come out as they went in; this module says exactly when they do.

**Method.**  A document is cut into `Passage`s: single lines, and the bodies of stylesheets.
Every passage says which lines of it are to be kept (`kept`) and which lines it is written as
(`written`).  The lines of a tidied stylesheet never look like a closing fence
(`closes_written`), so that the fences of the document and those of the outcome are the
same, and what is kept has to be found between the same two of them
(`sublist_of_sublist_append`).

**Results.**
* `reformat_keeps_iff`: the lines are kept iff every stylesheet that cannot be read is written as
  it stands and no stylesheet is left open.
-/

namespace Cascade

/-! ## Texts and their beginnings -/

namespace Text

theorem afterLead?_eq_some_iff {lead s rest : List Char} :
    afterLead? lead s = some rest ↔ s = lead ++ rest := by
  constructor
  · intro h
    induction lead generalizing s with
    | nil => simpa [afterLead?] using h
    | cons p ps ih =>
        cases s with
        | nil => cases h
        | cons c cs =>
            rw [afterLead?] at h
            split at h
            · next hpc => rw [hpc, ih h, List.cons_append]
            · cases h
  · rintro rfl
    exact afterLead?_append lead rest

/-- A beginning is taken off where it stands. -/
theorem dropLead_append (lead s : List Char) :
    dropLead lead (lead ++ s) = s := by
  rw [dropLead, afterLead?_append, Option.getD_some]

theorem dropLead_of_not_lead {lead s : List Char} (h : ¬ lead <+: s) :
    dropLead lead s = s := by
  have hnone : afterLead? lead s = none := by
    rw [Option.eq_none_iff_forall_not_mem]
    intro rest hrest
    exact h ⟨rest, (afterLead?_eq_some_iff.mp hrest).symm⟩
  rw [dropLead, hnone, Option.getD_none]

end Text

namespace Markdown

open Text

/-- The lines without the empty ones at the end. -/
def dropEmptyEnd (lines : List Line) : List Line :=
  lines.rdropWhile List.isEmpty

theorem splitAt_linesText {lines : List Line} (h : ∀ line ∈ lines, OneLine line) (s : List Char) :
    splitAt '\n' (linesText lines ++ s) = lines ++ splitAt '\n' s := by
  induction lines with
  | nil => rfl
  | cons line rest ih =>
      obtain ⟨hline, hrest⟩ := List.forall_mem_cons.mp h
      have hcons : linesText (line :: rest) ++ s = line ++ '\n' :: (linesText rest ++ s) := by
        simp [linesText]
      rw [hcons, splitAt_append hline, ih hrest, List.cons_append]

/-- Cutting a text into lines undoes putting lines together, but for empty lines at the end.  The
empty text has an empty line. -/
theorem textLines_linesText {lines : List Line} (h : ∀ line ∈ lines, OneLine line) :
    textLines (linesText lines) =
      if dropEmptyEnd lines = [] then [[]] else dropEmptyEnd lines := by
  induction lines using List.reverseRecOn with
  | nil => rfl
  | append_singleton lines last ih =>
      obtain ⟨hlines, hlast⟩ := List.forall_mem_append.mp h
      have htext : linesText (lines ++ [last]) = linesText lines ++ last ++ ['\n'] := by
        simp [linesText]
      have hoff : textLines (linesText (lines ++ [last])) = textLines (linesText lines ++ last) := by
        rw [htext]
        exact congrArg (splitAt '\n') (List.rdropWhile_concat_pos _ _ _ rfl)
      rw [hoff, dropEmptyEnd, List.rdropWhile_concat]
      rcases List.eq_nil_or_concat' last with rfl | ⟨front, c, rfl⟩
      · simpa [dropEmptyEnd] using ih hlines
      · have hline : OneLine (front ++ [c]) := hlast _ List.mem_cons_self
        have hc : ¬ (c == '\n') = true := by simpa using (oneLine_append.mp hline).2
        have hkeep : dropLineEnds (linesText lines ++ (front ++ [c])) =
            linesText lines ++ (front ++ [c]) := by
          rw [← List.append_assoc]
          exact List.rdropWhile_concat_neg _ _ _ hc
        rw [textLines, hkeep, splitAt_linesText hlines, splitAt_of_not_mem hline]
        simp

/-! ## Fences -/

theorem drop_length_takeWhile (p : Char → Bool) (s : List Char) :
    s.drop (s.takeWhile p).length = s.dropWhile p := by
  induction s with
  | nil => rfl
  | cons c cs ih => cases h : p c <;> simp [h, ih]

/-- A line that consists of a mark has nothing but white space around it. -/
theorem exists_of_indentOf? {mark : List Char} {line : Line} {indent : List Char}
    (h : indentOf? mark line = some indent) :
    ∃ rest, line = indent ++ (mark ++ rest) ∧ indent.all isAsciiBlank = true ∧
      rest.all isAsciiBlank = true := by
  unfold indentOf? at h
  dsimp only at h
  rw [drop_length_takeWhile] at h
  split at h
  · next rest hrest =>
      split at h
      · next hblank =>
          cases h
          refine ⟨rest, ?_, List.all_takeWhile, hblank⟩
          rw [← afterLead?_eq_some_iff.mp hrest, List.takeWhile_append_dropWhile]
      · cases h
  · cases h

theorem closes_eq (line : Line) :
    closes line =
      (afterLead? fence (line.dropWhile isAsciiBlank)).any fun rest => rest.all isAsciiBlank := by
  unfold closes indentOf?
  dsimp only
  rw [drop_length_takeWhile]
  cases afterLead? fence (line.dropWhile isAsciiBlank) with
  | none => rfl
  | some rest => cases h : rest.all isAsciiBlank <;> simp [h]

/-- White space in front of a line does not matter for whether it closes a stylesheet. -/
theorem closes_append {indent : List Char} (hindent : indent.all isAsciiBlank = true) (line : Line) :
    closes (indent ++ line) = closes line := by
  rw [closes_eq, closes_eq, List.dropWhile_append_of_pos (List.all_eq_true.mp hindent)]

theorem closes_nil :
    closes [] = false :=
  rfl

/-- A line of a written stylesheet closes none. -/
theorem closes_of_isWrittenLine {line : Line} (h : IsWrittenLine line) :
    closes line = false := by
  by_contra hcloses
  obtain ⟨indent, hindent⟩ := Option.isSome_iff_exists.mp (Bool.not_eq_false _ ▸ hcloses)
  obtain ⟨rest, rfl, -, hblank⟩ := exists_of_indentOf? hindent
  rcases List.eq_nil_or_concat' rest with rfl | ⟨front, c, rfl⟩
  · have hends := h.ends '\x60' (by simp [fence])
    simp at hends
  · have hends := h.ends c (by simp)
    have hc : isAsciiBlank c = true := List.all_eq_true.mp hblank c (by simp)
    simp only [List.mem_cons, List.not_mem_nil, or_false] at hends
    rcases hends with rfl | rfl | rfl <;> exact absurd hc (by decide)

/-! ## Passages of a document -/

/-- A passage of a document: a line, the body of a stylesheet that has been closed, with the indentation
of its fence, or the body of one that is left open.  Fences are lines. -/
inductive Passage where
  | line (line : Line)
  | closed (indent : List Char) (body : List Line)
  | unclosed (body : List Line)

/-- The passages of the lines behind those of the open stylesheet, if there is one. -/
def passagesFrom : Option (List Char × List Line) → List Line → List Passage
  | none, [] => []
  | some (_, body), [] => [.unclosed body]
  | none, line :: rest =>
    match opens? line with
    | some indent => .line line :: passagesFrom (some (indent, [])) rest
    | none => .line line :: passagesFrom none rest
  | some (indent, body), line :: rest =>
    if closes line then
      .closed indent body :: .line line :: passagesFrom none rest
    else
      passagesFrom (some (indent, body ++ [line])) rest

/-- The passages of a document. -/
def passages (document : String) : List Passage :=
  passagesFrom none (linesOf document.toList)

namespace Passage

/-- The lines of a passage. -/
def lines : Passage → List Line
  | .line l => [l]
  | .closed _ body => body
  | .unclosed body => body

/-- The stylesheet with a body, without the indentation of its fence. -/
def sheetSource (indent : List Char) (body : List Line) : String :=
  String.ofList (linesText (body.map (dropLead indent)))

/-- The stylesheet can be read and written. -/
def isTidied (indent : List Char) (body : List Line) : Bool :=
  (tidySheet (sheetSource indent body)).isSome

/-- The lines that are to be kept: all but those of a closed stylesheet that can be tidied. -/
def kept : Passage → List Line
  | .line l => [l]
  | .closed indent body => if isTidied indent body then [] else body
  | .unclosed body => body

/-- The lines that the passage is written as. -/
def written : Passage → List Line
  | .line l => [l]
  | .closed indent body => blockLines tidySheet indent (body.map (dropLead indent))
  | .unclosed _ => []

@[simp] theorem kept_line (l : Line) :
    (Passage.line l).kept = [l] :=
  rfl

@[simp] theorem kept_closed (indent : List Char) (body : List Line) :
    (Passage.closed indent body).kept = if isTidied indent body then [] else body :=
  rfl

@[simp] theorem kept_unclosed (body : List Line) :
    (Passage.unclosed body).kept = body :=
  rfl

@[simp] theorem written_line (l : Line) :
    (Passage.line l).written = [l] :=
  rfl

@[simp] theorem written_closed (indent : List Char) (body : List Line) :
    (Passage.closed indent body).written =
      blockLines tidySheet indent (body.map (dropLead indent)) :=
  rfl

@[simp] theorem written_unclosed (body : List Line) :
    (Passage.unclosed body).written = [] :=
  rfl

/-- The lines that are to be kept come out as they are: those of a stylesheet that cannot be tidied
are empty or stand behind the indentation of the fence with something to see in them, and the last
one is not empty; no line of a stylesheet that is left open has anything in it. -/
def IsSafe : Passage → Prop
  | .line _ => True
  | .closed indent body => isTidied indent body = true ∨
      (∀ line ∈ body, line = [] ∨ indent <+: line ∧ isAllBlank line = false) ∧
        body.getLast? ≠ some []
  | .unclosed body => ∀ line ∈ body, line = []

instance : (p : Passage) → Decidable p.IsSafe
  | .line _ => inferInstanceAs (Decidable True)
  | .closed indent body =>
    inferInstanceAs (Decidable (isTidied indent body = true ∨
      (∀ line ∈ body, line = [] ∨ indent <+: line ∧ isAllBlank line = false) ∧
        body.getLast? ≠ some []))
  | .unclosed body => inferInstanceAs (Decidable (∀ line ∈ body, line = []))

end Passage

/-- The passages hold all lines, in order. -/
theorem lines_passagesFrom (indent : List Char) (body lines : List Line) :
    (passagesFrom none lines).flatMap Passage.lines = lines ∧
      (passagesFrom (some (indent, body)) lines).flatMap Passage.lines = body ++ lines := by
  induction lines generalizing indent body with
  | nil => simp [passagesFrom, Passage.lines]
  | cons line rest ih =>
      constructor
      · rw [passagesFrom]
        split
        · next indent _ => simp [Passage.lines, (ih indent []).2]
        · simp [Passage.lines, (ih [] []).1]
      · rw [passagesFrom]
        split
        · simp [Passage.lines, (ih [] []).1]
        · simp [(ih indent (body ++ [line])).2]

theorem lines_passages (document : String) :
    (passages document).flatMap Passage.lines = linesOf document.toList :=
  (lines_passagesFrom [] [] _).1

/-- Tidying goes passage by passage. -/
theorem tidyLines_passagesFrom (indent : List Char) (body lines : List Line) :
    tidyLines tidySheet none lines = (passagesFrom none lines).flatMap Passage.written ∧
      tidyLines tidySheet (some (indent, body.map (dropLead indent))) lines =
        (passagesFrom (some (indent, body)) lines).flatMap Passage.written := by
  induction lines generalizing indent body with
  | nil => simp [passagesFrom, tidyLines, Passage.written]
  | cons line rest ih =>
      constructor
      · cases hopens : opens? line with
        | some indent => simpa [passagesFrom, tidyLines, hopens, Passage.written] using (ih indent []).2
        | none => simpa [passagesFrom, tidyLines, hopens, Passage.written] using (ih [] []).1
      · cases hcloses : closes line with
        | true => simpa [passagesFrom, tidyLines, hcloses, Passage.written] using (ih [] []).1
        | false =>
            simpa [passagesFrom, tidyLines, hcloses] using (ih indent (body ++ [line])).2

/-- The text consists of white space in a line. -/
structure IsIndent (indent : List Char) : Prop where
  oneLine : OneLine indent
  blank : indent.all isAsciiBlank = true

/-- The line may stand in a body, since it does not close it. -/
structure InBody (line : Line) : Prop where
  oneLine : OneLine line
  closes : closes line = false

/-- The passages of a document: a body has no line that closes it, and a closing line stands behind it
if it is closed; only the last passage is left open. -/
inductive WellFormed : List Passage → Prop
  | nil : WellFormed []
  | line {line : Line} {ps : List Passage} :
      OneLine line → WellFormed ps → WellFormed (.line line :: ps)
  | closed {indent : List Char} {body : List Line} {fence : Line} {ps : List Passage} :
      IsIndent indent → (∀ line ∈ body, InBody line) → OneLine fence → closes fence = true →
      WellFormed ps → WellFormed (.closed indent body :: .line fence :: ps)
  | unclosed {body : List Line} :
      (∀ line ∈ body, InBody line) → WellFormed [.unclosed body]

theorem isIndent_of_opens? {line : Line} (hline : OneLine line) {indent : List Char}
    (h : opens? line = some indent) :
    IsIndent indent := by
  obtain ⟨rest, rfl, hblank, -⟩ := exists_of_indentOf? h
  exact ⟨(oneLine_append.mp hline).1, hblank⟩

theorem wellFormed_passagesFrom {indent : List Char} {body : List Line} (hindent : IsIndent indent)
    (hbody : ∀ line ∈ body, InBody line) {lines : List Line} (hlines : ∀ line ∈ lines, OneLine line) :
    WellFormed (passagesFrom none lines) ∧ WellFormed (passagesFrom (some (indent, body)) lines) := by
  induction lines generalizing indent body with
  | nil => exact ⟨.nil, .unclosed hbody⟩
  | cons line rest ih =>
      obtain ⟨hline, hrest⟩ := List.forall_mem_cons.mp hlines
      have hnone := (ih hindent (List.forall_mem_nil _) hrest).1
      constructor
      · rw [passagesFrom]
        split
        · next opened hopens =>
            exact .line hline (ih (isIndent_of_opens? hline hopens) (List.forall_mem_nil _) hrest).2
        · exact .line hline hnone
      · rw [passagesFrom]
        split
        · next hcloses => exact .closed hindent hbody hline hcloses hnone
        · next hcloses =>
            have hinside : InBody line := ⟨hline, by simpa using hcloses⟩
            refine (ih hindent (List.forall_mem_append.mpr ⟨hbody, ?_⟩) hrest).2
            exact List.forall_mem_singleton.mpr hinside

theorem oneLine_of_mem_linesOf {s : List Char} {line : Line} (h : line ∈ linesOf s) :
    OneLine line := by
  obtain ⟨part, hpart, rfl⟩ := List.mem_map.mp h
  have hmem : part ∈ splitAt '\n' s := by
    split at hpart
    · exact List.mem_of_mem_dropLast hpart
    · exact hpart
  have hone : OneLine part := not_mem_of_mem_splitAt hmem
  unfold dropReturn
  split
  · exact fun hline => hone (List.mem_of_mem_dropLast hline)
  · exact hone

theorem wellFormed_passages (document : String) :
    WellFormed (passages document) :=
  (wellFormed_passagesFrom ⟨oneLine_nil, rfl⟩ (List.forall_mem_nil _) fun _ => oneLine_of_mem_linesOf).1

/-! ## The lines of a stylesheet -/

theorem isAllBlank_append {indent : List Char} (hindent : indent.all isAsciiBlank = true)
    (s : List Char) :
    isAllBlank (indent ++ s) = isAllBlank s := by
  have hblank : indent.all isBlank = true :=
    List.all_eq_true.mpr fun c hc =>
      isBlank_of_isLayout (isLayout_of_isAsciiBlank (List.all_eq_true.mp hindent c hc))
  rw [isAllBlank, List.all_append, hblank, Bool.true_and, isAllBlank]

/-- Behind the indentation of its fence a line is as it was, if it stood there and shows something, or
is empty. -/
theorem indented_dropLead_eq_iff {indent : List Char} (hindent : indent.all isAsciiBlank = true)
    {line : Line} :
    indented indent (dropLead indent line) = line ↔
      line = [] ∨ indent <+: line ∧ isAllBlank line = false := by
  unfold indented
  by_cases hstarts : indent <+: line
  · obtain ⟨rest, rfl⟩ := hstarts
    rw [dropLead_append, isAllBlank_append hindent]
    cases isAllBlank rest <;> simp [eq_comm]
  · rw [dropLead_of_not_lead hstarts]
    cases hblank : isAllBlank line with
    | true => simp [hstarts, eq_comm]
    | false =>
        have hne : line ≠ [] := by
          rintro rfl
          cases hblank
        have hindentNe : indent ≠ [] := by
          rintro rfl
          exact hstarts List.nil_prefix
        simp [hstarts, hne, hindentNe]

/-- Without the indentation of the fence a line of a body stays one. -/
theorem InBody.dropLead {indent : List Char} (hindent : indent.all isAsciiBlank = true) {line : Line}
    (h : InBody line) :
    InBody (dropLead indent line) := by
  by_cases hstarts : indent <+: line
  · obtain ⟨rest, rfl⟩ := hstarts
    rw [dropLead_append]
    exact ⟨(oneLine_append.mp h.oneLine).2, (closes_append hindent rest).symm.trans h.closes⟩
  · rwa [dropLead_of_not_lead hstarts]

/-- The lines of a tidied stylesheet are empty or end with a brace or a semicolon. -/
theorem isWrittenLine_of_tidySheet {source text : String} (h : tidySheet source = some text) :
    ∀ line ∈ textLines text.toList, IsWrittenLine line := by
  unfold tidySheet at h
  split at h
  · next sheet hsheet =>
      have hformat : formatRules {} sheet.rules = .ok text := by
        cases hrules : formatRules {} sheet.rules with
        | error m =>
            rw [hrules] at h
            cases h
        | ok written =>
            rw [hrules] at h
            rw [Option.some.inj h]
      obtain ⟨lines, htext, hlines⟩ := Sheet.inLines_of_formatRules hsheet rfl rfl hformat
      rw [htext, textLines_linesText fun line hline => (hlines line hline).oneLine]
      split
      · exact List.forall_mem_singleton.mpr ⟨oneLine_nil, nofun⟩
      · exact fun line hline => hlines line ((List.rdropWhile_prefix _ _).subset hline)
  · cases h

/-- No line of a closed stylesheet is written as a line that closes one. -/
theorem closes_written {indent : List Char} (hindent : indent.all isAsciiBlank = true)
    {body : List Line} (hbody : ∀ line ∈ body, InBody line) :
    ∀ line ∈ (Passage.closed indent body).written, closes line = false := by
  have hindented {line : Line} (hline : closes line = false) :
      closes (indented indent line) = false := by
    unfold indented
    split
    · exact closes_nil
    · rwa [closes_append hindent]
  rw [Passage.written_closed, blockLines]
  dsimp only
  split
  · exact List.forall_mem_nil _
  · refine List.forall_mem_map.mpr fun line hline => hindented ?_
    cases htidy : tidySheet (String.ofList (linesText (body.map (dropLead indent)))) with
    | some text =>
        rw [htidy] at hline
        exact closes_of_isWrittenLine (isWrittenLine_of_tidySheet htidy line hline)
    | none =>
        have hinside : ∀ l ∈ body.map (dropLead indent), InBody l :=
          List.forall_mem_map.mpr fun l hl => (hbody l hl).dropLead hindent
        rw [htidy, Option.getD_none, String.toList_ofList,
          textLines_linesText fun l hl => (hinside l hl).oneLine] at hline
        split at hline
        · obtain rfl := List.mem_singleton.mp hline
          exact closes_nil
        · exact (hinside line ((List.rdropWhile_prefix _ _).subset hline)).closes

theorem dropLead_nil (indent : List Char) :
    dropLead indent [] = [] := by
  cases indent <;> rfl

theorem isAllBlank_dropLead {indent : List Char} (hindent : indent.all isAsciiBlank = true)
    (line : Line) :
    isAllBlank (dropLead indent line) = isAllBlank line := by
  by_cases hstarts : indent <+: line
  · obtain ⟨rest, rfl⟩ := hstarts
    rw [dropLead_append, isAllBlank_append hindent]
  · rw [dropLead_of_not_lead hstarts]

theorem isAllBlank_linesText {lines : List Line} :
    isAllBlank (linesText lines) = true ↔ ∀ line ∈ lines, isAllBlank line = true := by
  have hend : isBlank '\n' = true := by decide
  simp [isAllBlank, linesText, List.all_flatMap, hend]

theorem dropEmptyEnd_eq_self_iff {lines : List Line} :
    dropEmptyEnd lines = lines ↔ lines.getLast? ≠ some [] := by
  rcases List.eq_nil_or_concat' lines with rfl | ⟨front, last, rfl⟩
  · simp [dropEmptyEnd]
  · rw [dropEmptyEnd, List.rdropWhile_concat, List.getLast?_concat]
    by_cases hlast : last = []
    · subst hlast
      have hlength := (List.rdropWhile_prefix List.isEmpty front).length_le
      refine iff_of_false (fun h => ?_) (by simp)
      have hsame := congrArg List.length h
      simp at hsame
      omega
    · simp [hlast]

theorem dropEmptyEnd_eq_nil_iff {lines : List Line} :
    dropEmptyEnd lines = [] ↔ ∀ line ∈ lines, line = [] := by
  simp [dropEmptyEnd, List.rdropWhile_eq_nil_iff]

/-- The lines of a stylesheet that cannot be tidied are written behind the indentation of its fence,
without empty ones at the end; none is written if all are blank. -/
theorem written_of_not_isTidied {indent : List Char} (hindent : indent.all isAsciiBlank = true)
    {body : List Line} (hbody : ∀ line ∈ body, InBody line) (h : Passage.isTidied indent body = false) :
    (Passage.closed indent body).written =
      if ∀ line ∈ body, isAllBlank line = true then []
      else (dropEmptyEnd (body.map (dropLead indent))).map (indented indent) := by
  have hone : ∀ line ∈ body.map (dropLead indent), OneLine line :=
    List.forall_mem_map.mpr fun line hline => ((hbody line hline).dropLead hindent).oneLine
  have hblank : isAllBlank (linesText (body.map (dropLead indent))) = true ↔
      ∀ line ∈ body, isAllBlank line = true := by
    simp only [isAllBlank_linesText, List.forall_mem_map, isAllBlank_dropLead hindent]
  have hnone : tidySheet (String.ofList (linesText (body.map (dropLead indent)))) = none := by
    simpa [Passage.isTidied, Passage.sheetSource] using h
  rw [Passage.written_closed, blockLines]
  simp only [hblank, hnone, Option.getD_none, String.toList_ofList, textLines_linesText hone]
  split
  · rfl
  · next hshows =>
      have hne : dropEmptyEnd (body.map (dropLead indent)) ≠ [] := by
        rw [ne_eq, dropEmptyEnd_eq_nil_iff, List.forall_mem_map]
        refine fun hempty => hshows fun line hline => ?_
        rw [← isAllBlank_dropLead hindent, hempty line hline]
        rfl
      rw [if_neg hne]

/-- The lines of a body come out in order iff each of them comes out as it is and none is dropped. -/
theorem sublist_indented_iff {indent : List Char} {body : List Line} :
    body.Sublist ((dropEmptyEnd (body.map (dropLead indent))).map (indented indent)) ↔
      (∀ line ∈ body, indented indent (dropLead indent line) = line) ∧ body.getLast? ≠ some [] := by
  have hstarts : dropEmptyEnd (body.map (dropLead indent)) <+: body.map (dropLead indent) :=
    List.rdropWhile_prefix _ _
  -- A line that comes out as it is becomes empty only if it was.
  have hlast (hfixed : ∀ line ∈ body, indented indent (dropLead indent line) = line) :
      (body.map (dropLead indent)).getLast? ≠ some [] ↔ body.getLast? ≠ some [] := by
    rcases List.eq_nil_or_concat' body with rfl | ⟨front, last, rfl⟩
    · simp
    · have hempty : dropLead indent last = [] ↔ last = [] := by
        constructor
        · intro h
          rw [← hfixed last (by simp), h]
          rfl
        · rintro rfl
          exact dropLead_nil indent
      simp [hempty]
  constructor
  · intro h
    have hlength := hstarts.length_le
    have hle := h.length_le
    simp only [List.length_map] at hlength hle
    have hall := hstarts.eq_of_length (by rw [List.length_map]; omega)
    have hsame := h.eq_of_length (by rw [hall]; simp)
    rw [hall, List.map_map] at hsame
    have hfixed : ∀ line ∈ body, indented indent (dropLead indent line) = line :=
      List.map_inj_left.mp (hsame.symm.trans (List.map_id body).symm)
    exact ⟨hfixed, (hlast hfixed).mp (dropEmptyEnd_eq_self_iff.mp hall)⟩
  · rintro ⟨hfixed, hend⟩
    have hsame : body.map (indented indent ∘ dropLead indent) = body :=
      (List.map_congr_left hfixed).trans (List.map_id body)
    rw [dropEmptyEnd_eq_self_iff.mpr ((hlast hfixed).mpr hend), List.map_map, hsame]

/-- The lines of a closed stylesheet that are to be kept come out in order iff it can be tidied or
comes out as it is. -/
theorem kept_sublist_written_iff {indent : List Char} (hindent : indent.all isAsciiBlank = true)
    {body : List Line} (hbody : ∀ line ∈ body, InBody line) :
    (Passage.closed indent body).kept.Sublist (Passage.closed indent body).written ↔
      (Passage.closed indent body).IsSafe := by
  cases htidied : Passage.isTidied indent body with
  | true => simp [Passage.IsSafe, htidied]
  | false =>
      have hsafe : (Passage.closed indent body).IsSafe ↔
          (∀ line ∈ body, indented indent (dropLead indent line) = line) ∧
            body.getLast? ≠ some [] := by
        simp only [Passage.IsSafe, htidied, Bool.false_eq_true, false_or,
          indented_dropLead_eq_iff hindent]
      rw [hsafe, written_of_not_isTidied hindent hbody htidied, Passage.kept_closed, htidied,
        if_neg Bool.false_ne_true]
      split
      · next hblank =>
          rw [List.sublist_nil]
          constructor
          · rintro rfl
            exact ⟨List.forall_mem_nil _, nofun⟩
          · -- The last line of a body would be written as an empty one.
            rintro ⟨hfixed, hlast⟩
            rcases List.eq_nil_or_concat' body with rfl | ⟨front, last, rfl⟩
            · rfl
            · have hempty := hfixed last (by simp)
              rw [indented, isAllBlank_dropLead hindent, hblank last (by simp), if_pos rfl] at hempty
              simp [← hempty] at hlast
      · exact sublist_indented_iff

/-! ## Fences stay fences -/

/-- Between two lists with the same number of marks, a first mark can only be found at the first
mark. -/
theorem sublist_of_sublist_append {α : Type} {p : α → Bool} {c : α} (hc : p c = true)
    {us us' vs vs' : List α} (hus : ∀ a ∈ us', p a = false)
    (hcount : vs.countP p = vs'.countP p) (h : (us ++ c :: vs).Sublist (us' ++ c :: vs')) :
    us.Sublist us' ∧ vs.Sublist vs' := by
  have hnot : c ∉ us' := fun hmem => by
    rw [hus c hmem] at hc
    cases hc
  have hnone : us'.countP p = 0 := List.countP_eq_zero.mpr fun a ha => by simp [hus a ha]
  obtain ⟨front, behind, hsplit, hfront, hbehind⟩ := List.append_sublist_iff.mp h
  have htotal := congrArg (List.countP p) hsplit
  have hle := hbehind.countP_le (p := p)
  simp only [List.countP_append, List.countP_cons_of_pos hc] at htotal hle
  have hfrontNone : front.countP p = 0 := by omega
  rcases List.append_eq_append_iff.mp hsplit with ⟨extra, rfl, hextra⟩ | ⟨extra, rfl, rfl⟩
  · cases extra with
    | nil =>
        rw [List.append_nil] at hfront
        rw [List.nil_append] at hextra
        subst hextra
        exact ⟨hfront, List.cons_sublist_cons.mp hbehind⟩
    | cons d ds =>
        obtain rfl : c = d := (List.cons.inj hextra).1
        rw [List.countP_append, List.countP_cons_of_pos hc] at hfrontNone
        omega
  · refine ⟨hfront.trans (List.sublist_append_left _ _), ?_⟩
    obtain ⟨before, rest, hrest, hmem, hvs⟩ := List.cons_sublist_iff.mp hbehind
    rcases List.append_eq_append_iff.mp hrest with ⟨more, rfl, hmore⟩ | ⟨more, rfl, -⟩
    · cases more with
      | nil =>
          rw [List.append_nil] at hmem
          exact absurd (List.mem_append_right _ hmem) hnot
      | cons d ds =>
          obtain ⟨-, rfl⟩ := List.cons.inj hmore
          exact hvs.trans (List.sublist_append_right _ _)
    · exact absurd (List.mem_append_right _ (List.mem_append_left _ hmem)) hnot

theorem countP_closes_dropEmptyEnd (lines : List Line) :
    (dropEmptyEnd lines).countP closes = lines.countP closes := by
  induction lines using List.reverseRecOn with
  | nil => rfl
  | append_singleton lines last ih =>
      rw [dropEmptyEnd, List.rdropWhile_concat]
      split
      · next hempty =>
          rw [List.isEmpty_iff.mp hempty]
          simpa [dropEmptyEnd, closes_nil] using ih
      · rfl

/-- What is to be kept and what is written close the same stylesheets. -/
theorem WellFormed.countP_closes {ps : List Passage} (h : WellFormed ps) :
    (ps.flatMap Passage.kept).countP closes = (ps.flatMap Passage.written).countP closes := by
  have hzero {lines : List Line} (h : ∀ line ∈ lines, closes line = false) :
      lines.countP closes = 0 :=
    List.countP_eq_zero.mpr fun line hline => by simp [h line hline]
  induction h with
  | nil => rw [List.flatMap_nil, List.flatMap_nil]
  | line _ _ ih =>
      simp only [List.flatMap_cons, List.countP_append, Passage.kept_line, Passage.written_line, ih]
  | @closed indent body fence ps hindent hbody _ _ _ ih =>
      have hkept : (Passage.closed indent body).kept.countP closes = 0 := by
        rw [Passage.kept_closed]
        split
        · rfl
        · exact hzero fun line hline => (hbody line hline).closes
      have hwritten := hzero (closes_written hindent.blank hbody)
      simp only [List.flatMap_cons, List.countP_append, hkept, hwritten, Passage.kept_line,
        Passage.written_line, ih]
  | unclosed hbody =>
      simp only [List.flatMap_singleton, Passage.kept_unclosed, Passage.written_unclosed, List.countP_nil,
        hzero fun line hline => (hbody line hline).closes]

theorem dropEmptyEnd_append {us vs : List Line} {c : Line} (hc : c ≠ []) :
    dropEmptyEnd (us ++ c :: vs) = us ++ c :: dropEmptyEnd vs := by
  induction vs using List.reverseRecOn with
  | nil => exact List.rdropWhile_concat_neg _ _ _ (by simpa using hc)
  | append_singleton vs last ih =>
      rw [← List.cons_append, ← List.append_assoc]
      simp only [dropEmptyEnd, List.rdropWhile_concat] at ih ⊢
      split
      · exact ih
      · simp

/-- An empty line in front is dropped with all others. -/
theorem dropEmptyEnd_cons_sublist_iff (line : Line) (us vs : List Line) :
    (dropEmptyEnd (line :: us)).Sublist (line :: vs) ↔ (dropEmptyEnd us).Sublist vs := by
  by_cases hline : line = []
  · subst hline
    by_cases hus : ∀ u ∈ us, u = []
    · have hnil := dropEmptyEnd_eq_nil_iff.mpr hus
      have hcons := dropEmptyEnd_eq_nil_iff.mpr (List.forall_mem_cons.mpr ⟨rfl, hus⟩)
      simp [hnil, hcons]
    · have hcons : dropEmptyEnd ([] :: us) = [] :: dropEmptyEnd us := by
        obtain ⟨u, hu, hne⟩ := by simpa using hus
        obtain ⟨before, behind, rfl⟩ := List.append_of_mem hu
        rw [← List.cons_append, dropEmptyEnd_append hne, dropEmptyEnd_append hne, List.cons_append]
      rw [hcons, List.cons_sublist_cons]
  · have hcons : dropEmptyEnd (line :: us) = line :: dropEmptyEnd us :=
      @dropEmptyEnd_append [] us line hline
    rw [hcons, List.cons_sublist_cons]

/-- The lines that are to be kept are among those written, in order, iff every passage is safe. -/
theorem WellFormed.sublist_iff {ps : List Passage} (h : WellFormed ps) :
    (dropEmptyEnd (ps.flatMap Passage.kept)).Sublist (ps.flatMap Passage.written) ↔
      ∀ passage ∈ ps, passage.IsSafe := by
  induction h with
  | nil => simp [dropEmptyEnd]
  | @line line ps _ _ ih =>
      rw [List.forall_mem_cons, ← ih, List.flatMap_cons, List.flatMap_cons, Passage.kept_line,
        Passage.written_line, List.singleton_append, List.singleton_append,
        dropEmptyEnd_cons_sublist_iff]
      exact ⟨fun h => ⟨trivial, h⟩, And.right⟩
  | @closed indent body fence ps hindent hbody _ hfence hps ih =>
      have hne : fence ≠ [] := by
        rintro rfl
        cases hfence
      have hkept : dropEmptyEnd ((Passage.closed indent body :: .line fence :: ps).flatMap Passage.kept) =
          (Passage.closed indent body).kept ++ fence :: dropEmptyEnd (ps.flatMap Passage.kept) := by
        rw [List.flatMap_cons, List.flatMap_cons, Passage.kept_line, List.singleton_append,
          dropEmptyEnd_append hne]
      have hwritten : (Passage.closed indent body :: .line fence :: ps).flatMap Passage.written =
          (Passage.closed indent body).written ++ fence :: ps.flatMap Passage.written := by
        rw [List.flatMap_cons, List.flatMap_cons, Passage.written_line, List.singleton_append]
      have hcount : (dropEmptyEnd (ps.flatMap Passage.kept)).countP closes =
          (ps.flatMap Passage.written).countP closes :=
        (countP_closes_dropEmptyEnd _).trans hps.countP_closes
      rw [hkept, hwritten, List.forall_mem_cons, List.forall_mem_cons, ← ih,
        ← kept_sublist_written_iff hindent.blank hbody]
      constructor
      · intro h
        obtain ⟨hbodies, hrest⟩ :=
          sublist_of_sublist_append hfence (closes_written hindent.blank hbody) hcount h
        exact ⟨hbodies, trivial, hrest⟩
      · rintro ⟨hbodies, -, hrest⟩
        exact hbodies.append (List.cons_sublist_cons.mpr hrest)
  | @unclosed body _ =>
      rw [List.flatMap_singleton, List.flatMap_singleton, List.forall_mem_singleton,
        Passage.kept_unclosed, Passage.written_unclosed, List.sublist_nil, dropEmptyEnd_eq_nil_iff]
      rfl

theorem WellFormed.oneLine_written {ps : List Passage} (h : WellFormed ps) :
    ∀ line ∈ ps.flatMap Passage.written, OneLine line := by
  induction h with
  | nil => exact List.forall_mem_nil _
  | line hline _ ih =>
      rw [List.flatMap_cons, Passage.written_line]
      exact List.forall_mem_cons.mpr ⟨hline, ih⟩
  | @closed indent body fence ps hindent _ hfence _ _ ih =>
      have hbody : ∀ line ∈ (Passage.closed indent body).written, OneLine line := by
        rw [Passage.written_closed, blockLines]
        dsimp only
        split
        · exact List.forall_mem_nil _
        · refine List.forall_mem_map.mpr fun line hline => ?_
          unfold indented
          split
          · exact oneLine_nil
          · exact oneLine_append.mpr ⟨hindent.oneLine, not_mem_of_mem_splitAt hline⟩
      rw [List.flatMap_cons, List.flatMap_cons, Passage.written_line]
      exact List.forall_mem_append.mpr ⟨hbody, List.forall_mem_cons.mpr ⟨hfence, ih⟩⟩
  | unclosed =>
      rw [List.flatMap_singleton, Passage.written_unclosed]
      exact List.forall_mem_nil _

/-- Lines without empty ones at the end are found among others iff they are found before the empty ones
at their end. -/
theorem sublist_dropEmptyEnd_iff {us : List Line} (hus : us.getLast? ≠ some []) (vs : List Line) :
    us.Sublist (dropEmptyEnd vs) ↔ us.Sublist vs := by
  induction vs using List.reverseRecOn with
  | nil => rfl
  | append_singleton vs last ih =>
      rw [dropEmptyEnd, List.rdropWhile_concat]
      split
      · next hlast =>
          rw [List.isEmpty_iff.mp hlast]
          refine ih.trans ⟨fun h => h.trans (List.sublist_append_left _ _), fun h => ?_⟩
          obtain ⟨front, behind, rfl, hfront, hbehind⟩ := List.sublist_append_iff.mp h
          rcases List.sublist_singleton.mp hbehind with rfl | rfl
          · rwa [List.append_nil]
          · simp at hus
      · rfl

/-! ## Documents -/

/-- The lines of a tidied document are those that its passages are written as. -/
theorem splitAt_reformat {document text : String} (h : reformat document = .ok text) :
    splitAt '\n' text.toList =
      if dropEmptyEnd ((passages document).flatMap Passage.written) = [] then [[]]
      else dropEmptyEnd ((passages document).flatMap Passage.written) := by
  unfold reformat at h
  dsimp only at h
  split at h
  · cases h
  · rw [← Except.ok.inj h, (tidyLines_passagesFrom [] [] _).1, String.toList_ofList]
    exact textLines_linesText (wellFormed_passages document).oneLine_written

/-- A document is cut into passages.  When it is tidied, all lines but those of the closed stylesheets
that can be tidied come out unchanged and in order, up to empty lines at the end, iff every closed
stylesheet that cannot be tidied has its lines behind the indentation of its fence, with something to
see in them, or empty, the last one not being empty, and nothing stands behind the fence of a
stylesheet that is left open. -/
theorem reformat_keeps_iff {document text : String} (h : reformat document = .ok text) :
    (passages document).flatMap Passage.lines = linesOf document.toList ∧
      ((dropEmptyEnd ((passages document).flatMap Passage.kept)).Sublist (splitAt '\n' text.toList) ↔
        ∀ passage ∈ passages document, passage.IsSafe) := by
  have hend : (dropEmptyEnd ((passages document).flatMap Passage.kept)).getLast? ≠ some [] :=
    dropEmptyEnd_eq_self_iff.mp (List.rdropWhile_idempotent _ _)
  refine ⟨lines_passages document, ?_⟩
  rw [← (wellFormed_passages document).sublist_iff, splitAt_reformat h,
    ← sublist_dropEmptyEnd_iff hend ((passages document).flatMap Passage.written)]
  split
  · next hnil =>
      -- A text without lines has one that is empty.
      rw [hnil, List.sublist_singleton, List.sublist_nil]
      refine or_iff_left fun hsingle => hend ?_
      rw [hsingle]
      rfl
  · rfl

/-- A stylesheet that can be tidied, and one behind it that cannot. -/
def shownSheets : String :=
  "- a\n  ```css\n  b\x7bx:1\x7d\n  ```\n\n```css\na b c\n```\n\nend\n"

/-- The document when it is tidied. -/
def tidiedSheets : String :=
  "- a\n  ```css\n  b \x7b\n    x: 1;\n  \x7d\n  ```\n\n```css\na b c\n```\n\nend"

theorem reformat_keeps_shownSheets :
    reformat shownSheets = .ok tidiedSheets ∧
      (dropEmptyEnd ((passages shownSheets).flatMap Passage.kept)).Sublist
        (splitAt '\n' tidiedSheets.toList) := by
  have h : reformat shownSheets = .ok tidiedSheets := by decide +kernel
  have hsafe : ∀ passage ∈ passages shownSheets, passage.IsSafe := by decide +kernel
  exact ⟨h, (reformat_keeps_iff h).2.mpr hsafe⟩

/-- A stylesheet that is left open. -/
def openSheet : String :=
  "```css\na \x7b x: 1 \x7d"

/-- The body of a stylesheet that is left open does not come out. -/
theorem openSheet_lost :
    ∃ text, reformat openSheet = .ok text ∧
      ¬ (dropEmptyEnd ((passages openSheet).flatMap Passage.kept)).Sublist
        (splitAt '\n' text.toList) := by
  exact ⟨"```css", by decide +kernel, by decide +kernel⟩

end Markdown
end Cascade

import Cascade.Config
import Cascade.Markdown.Block
import Cascade.Markdown.Inline

/-!
# Fixture documents

A fixture document shows stylesheets beside what they compile to.  Every heading
of the second level starts a case; the case holds a source, in a block marked
`hcss`, and an expectation: the output in a block marked `css`, or a part of the
error message in a block marked `error`.  Settings may stand in front of the
document, between lines of three dashes.

**Results.** `Document.parse` refuses a document without cases, and every case of
a document that was read has a source and an expectation
(`isComplete_of_mem_cases`).
-/

namespace Cascade

/-- The settings in front of a document. -/
structure FrontMatter where
  ignoreWhitespace : Option Bool := none
  maxDuration : Duration := .zero
  minify : Bool := false
  description : String := ""
deriving Repr, DecidableEq, Inhabited

/-- One case of a document. -/
structure DocumentCase where
  name : String
  /-- The line of the heading. -/
  line : Nat
  source : String := ""
  /-- The line of the first source line. -/
  sourceLine : Nat := 0
  expected : String := ""
  /-- A part of the message that compiling has to fail with. -/
  expectedError : String := ""
  /-- The prose in front of the source. -/
  description : String := ""
deriving Repr, DecidableEq, Inhabited

namespace DocumentCase

/-- The case expects compiling to fail. -/
def wantsError (c : DocumentCase) : Bool :=
  c.expectedError != ""

/-- The case has a source and an expectation. -/
def isComplete (c : DocumentCase) : Bool :=
  c.source != "" && (c.expected != "" || c.expectedError != "")

end DocumentCase

/-- A fixture document. -/
structure Document where
  title : String := ""
  frontMatter : FrontMatter := {}
  cases : List DocumentCase := []
deriving Repr, DecidableEq, Inhabited

/-- Why a document could not be read. -/
inductive DocumentError where
  | openFrontMatter
  | frontMatter (fault : Yaml.Fault)
  | negativeDuration
  | noCases
  | duplicateBlock (name : String) (line : Nat) (language : String)
  | missingSource (name : String) (line : Nat)
  | missingExpectation (name : String) (line : Nat)
deriving Repr, DecidableEq, Inhabited

namespace DocumentError

/-- The wording of an error. -/
def message : DocumentError → String
  | .openFrontMatter => "invalid front matter"
  | .frontMatter fault => "invalid front matter: " ++ fault.message
  | .negativeDuration => "invalid front matter: max_duration must be >= 0"
  | .noCases => "missing required section: no '## ' test case found"
  | .duplicateBlock name line language => invalid name line s!"duplicate ```{language} block"
  | .missingSource name line => invalid name line "missing ```hcss block"
  | .missingExpectation name line => invalid name line "missing ```css or ```error block"
where
  /-- A case that cannot be used. -/
  invalid (name : String) (line : Nat) (text : String) : String :=
    s!"invalid test case: {name} (line {line}): {text}"

end DocumentError

namespace FrontMatter

/-- The settings that a document of settings holds. -/
def decode (node : Yaml.Node) : Except Yaml.Fault FrontMatter := do
  let fields ← node.toFields ["ignore_whitespace", "max_duration", "minify", "description"]
  return {
    ignoreWhitespace := ← (Yaml.Node.get fields "ignore_whitespace").toBool?
    maxDuration := ← (Yaml.Node.get fields "max_duration").toDuration
    minify := ← (Yaml.Node.get fields "minify").toBool
    description := ← (Yaml.Node.get fields "description").toText }

/-- The settings in front of a text, the text behind them, and the lines that they take. -/
def parse (s : List Char) : Except DocumentError (FrontMatter × List Char × Nat) :=
  match Text.afterLead? ['-', '-', '-', '\n'] s with
  | none => .ok ({}, s, 0)
  | some rest =>
    match Text.cutAtPart? ['\n', '-', '-', '-'] rest with
    | none => .error .openFrontMatter
    | some (settings, behind) => do
      let body := Text.dropLead ['\n'] behind
      let node ← (Yaml.parse (String.ofList settings)).mapError .frontMatter
      let matter ← (decode node).mapError .frontMatter
      if matter.maxDuration.nanoseconds < 0 then throw .negativeDuration
      return (matter, body, (s.take (s.length - body.length)).count '\n')

end FrontMatter

namespace DocumentCase

/-- The case with a block of a language; `none` if it has one already. -/
def addBlock (c : DocumentCase) (language : String) (line : Nat) (body : List (List Char)) :
    Option DocumentCase :=
  let text := String.ofList (Text.dropLineEnds (Text.joinWith '\n' body))
  match language with
  | "hcss" =>
    let line := if body.isEmpty then c.sourceLine else line
    if c.source == "" then some { c with source := text, sourceLine := line } else none
  | "css" => if c.expected == "" then some { c with expected := text } else none
  | "error" =>
    if c.expectedError == "" then some { c with expectedError := Text.trim text } else none
  | _ => some c

/-- The case with a paragraph: the first one in front of the source describes it. -/
def addParagraph (c : DocumentCase) (text : List Char) : DocumentCase :=
  if c.source == "" && c.description == "" then
    { c with description := String.ofList (Markdown.plainText text) }
  else
    c

/-- What a case lacks. -/
def fault? (c : DocumentCase) : Option DocumentError :=
  if c.source == "" then some (.missingSource c.name c.line)
  else if c.expected == "" && c.expectedError == "" then some (.missingExpectation c.name c.line)
  else none

theorem isComplete_of_fault?_eq_none {c : DocumentCase} (h : c.fault? = none) :
    c.isComplete = true := by
  unfold fault? at h
  unfold isComplete
  by_cases hs : c.source = "" <;> by_cases he : c.expected = "" <;>
    by_cases hw : c.expectedError = "" <;> simp_all

end DocumentCase

namespace Document

/-- The language of a fenced block: the first word behind its fence, in lower case. -/
def language (info : List Char) : String :=
  Text.lowerCase (String.ofList (info.takeWhile (· != ' ')))

/-- The document with one more block, `offset` lines below the top; the last case is the first of
the list. -/
def addBlock (offset : Nat) (d : Document) : Markdown.Block → Except DocumentError Document
  | .heading level line text =>
    let name := String.ofList (Markdown.plainText text)
    if level = 1 && d.title == "" then .ok { d with title := name }
    else if level = 2 then
      .ok { d with cases := { name := name, line := line.getD 1 + offset } :: d.cases }
    else .ok d
  | .fenced info line body =>
    match d.cases with
    | [] => .ok d
    | c :: rest =>
      match c.addBlock (language info) (line + offset) body with
      | some c => .ok { d with cases := c :: rest }
      | none => .error (.duplicateBlock c.name c.line (language info))
  | .paragraph text =>
    match d.cases with
    | [] => .ok d
    | c :: rest => .ok { d with cases := c.addParagraph text :: rest }

/-- A document whose cases can be used. -/
def check (d : Document) : Except DocumentError Document :=
  if d.cases.isEmpty then .error .noCases
  else
    match d.cases.findSome? DocumentCase.fault? with
    | some e => .error e
    | none => .ok d

/-- The document of a text. -/
def parse (source : String) : Except DocumentError Document := do
  let (matter, body, offset) ← FrontMatter.parse source.toList
  let d ← (Markdown.blocks body).foldlM (addBlock offset) { frontMatter := matter }
  check { d with cases := d.cases.reverse }

theorem eq_of_check {d e : Document} (h : check d = .ok e) :
    e = d ∧ d.cases ≠ [] ∧ ∀ c ∈ d.cases, c.fault? = none := by
  unfold check at h
  split at h
  · simp at h
  · rename_i hne
    split at h
    · simp at h
    · rename_i hf
      simp only [Except.ok.injEq] at h
      exact ⟨h.symm, by simpa using hne, by simpa [List.findSome?_eq_none_iff] using hf⟩

/-- Every case of a document that was read can be run. -/
theorem isComplete_of_mem_cases {source : String} {d : Document} (h : parse source = .ok d) :
    d.cases ≠ [] ∧ ∀ c ∈ d.cases, c.isComplete = true := by
  unfold parse at h
  cases hm : FrontMatter.parse source.toList with
  | error e => simp [hm, bind, Except.bind] at h
  | ok r =>
    obtain ⟨matter, body, offset⟩ := r
    cases hd : (Markdown.blocks body).foldlM (addBlock offset) { frontMatter := matter } with
    | error e => simp [hm, hd, bind, Except.bind] at h
    | ok e =>
      simp only [hm, hd, bind, Except.bind] at h
      obtain ⟨rfl, hne, hall⟩ := eq_of_check h
      exact ⟨hne, fun c hc => DocumentCase.isComplete_of_fault?_eq_none (hall c hc)⟩

end Document
end Cascade

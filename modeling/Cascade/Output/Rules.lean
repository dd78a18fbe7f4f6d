import Cascade.Output.Selectors
import Cascade.Sheet

/-!
# Writing stylesheets

Plain stylesheets have no nested style rules.  A sheet is first laid flat: every
style rule becomes a rule beside the one around it, with resolved selectors, and
the declarations of an at-rule inside a style rule are wrapped in that rule's
selectors.  The flat rules are then written, indented or in the short form.
-/

namespace Cascade

/-- The form of the output. -/
structure Style where
  minify : Bool := false
  /-- The spaces per level. -/
  indent : Nat := 2
  /-- A comment at the top; the empty text stands for none. -/
  header : String := ""
deriving Repr, DecidableEq, Inhabited

/-- The style asked for; an indent that is not positive asks for the usual one. -/
def Style.ofRequest (minify : Bool) (indent : Int) (header : String) : Style :=
  { minify := minify
    indent := if indent ≤ 0 then 2 else indent.toNat
    header := header }

/-- An entry that stands where it cannot be written. -/
inductive Misplaced where
  | asRule (entry : String)
  | inStyle (entry : String)
  | inKeyframe (entry : String)
deriving Repr, DecidableEq, Inhabited

/-- The wording for a misplaced entry. -/
def Misplaced.message : Misplaced → String
  | .asRule entry => "unsupported node: " ++ entry
  | .inStyle entry => "unsupported node in style block: " ++ entry
  | .inKeyframe entry => "unsupported node in keyframe: " ++ entry

namespace Output

/-- A rule without nested style rules. -/
inductive Flat where
  /-- A prelude with declarations. -/
  | rule (head : List Char) (declarations : List Declaration)
  /-- An at-rule without a body. -/
  | statement (head : List Char)
  /-- An at-rule with a body. -/
  | group (head : List Char) (body : List Flat)
  /-- Declarations in the body of an at-rule; whether they end it. -/
  | declarations (declarations : List Declaration) (last : Bool)
deriving Repr, Inhabited

/-- The name and the prelude of an at-rule. -/
def atHead (minify : Bool) (name : Token) (prelude : List Value) : List Char :=
  let keyword := '@' :: escapeIdent name.text.toList
  if prelude.isEmpty then keyword else keyword ++ ' ' :: valuesText minify prelude

/-- The declarations among the entries of a body. -/
def declarationsOf (body : List Entry) : List Declaration :=
  body.filterMap fun
    | .declaration d => some d
    | _ => none

/-- The first entry that a style rule cannot hold. -/
def misplacedInStyle? (body : List Entry) : Option Entry :=
  body.find? fun
    | .keyframe _ _ _ _ => true
    | .loose _ => true
    | _ => false

/-- The first entry that a keyframe cannot hold. -/
def misplacedInKeyframe? (body : List Entry) : Option Entry :=
  body.find? fun
    | .declaration _ => false
    | _ => true

mutual

/-- The flat rules of an entry inside a rule with the given selectors. -/
def flatten (minify : Bool) (parents : List (List Char)) : Entry → Except Misplaced (List Flat)
  | .style _ list body => do
    let selectors := resolveSelectors minify parents list
    if let some entry := misplacedInStyle? body then
      throw (.inStyle entry.typeName)
    let decls := declarationsOf body
    let nested ← flattenRules minify selectors body
    if decls.isEmpty && (minify || decls.length < body.length) then
      return nested
    else
      return .rule (joinSelectors minify selectors) decls :: nested
  | .statement name prelude => return [.statement (atHead minify name prelude)]
  | .group name prelude _ body _ => do
    if parents.isEmpty then
      return [.group (atHead minify name prelude) (← flattenBody minify [] body)]
    else
      let decls := declarationsOf body
      let nested ← flattenRules minify parents body
      let wrapped := if decls.isEmpty then [] else [.rule (joinSelectors minify parents) decls]
      return [.group (atHead minify name prelude) (wrapped ++ nested)]
  | .keyframe prelude _ body _ =>
    match misplacedInKeyframe? body with
    | some entry => throw (.inKeyframe entry.typeName)
    | none => return [.rule (valuesText minify prelude) (declarationsOf body)]
  | entry => throw (.asRule entry.typeName)

/-- The flat rules of the rules among entries; declarations are left out. -/
def flattenRules (minify : Bool) (parents : List (List Char)) :
    List Entry → Except Misplaced (List Flat)
  | [] => return []
  | .declaration _ :: rest => flattenRules minify parents rest
  | entry :: rest => do
    let first ← flatten minify parents entry
    return first ++ (← flattenRules minify parents rest)

/-- The body of an at-rule at the top level: its rules, and runs of declarations between them.  The
current run is in reverse. -/
def flattenBody (minify : Bool) (run : List Declaration) :
    List Entry → Except Misplaced (List Flat)
  | [] => return if run.isEmpty then [] else [.declarations run.reverse true]
  | .declaration d :: rest => flattenBody minify (d :: run) rest
  | entry :: rest => do
    let first ← flatten minify [] entry
    let others ← flattenBody minify [] rest
    return (if run.isEmpty then [] else [.declarations run.reverse false]) ++ first ++ others

end

/-- The spaces before a line at a level. -/
def indentText (style : Style) (level : Nat) : List Char :=
  if style.minify then [] else List.replicate (level * style.indent) ' '

/-- The end of a line. -/
def lineEnd (style : Style) : List Char :=
  if style.minify then [] else ['\n']

/-- A declaration without its semicolon. -/
def declarationText (minify : Bool) (d : Declaration) : List Char :=
  escapeIdent d.name.text.toList ++ (if minify then [':'] else [':', ' ']) ++
    valuesText minify d.value ++
    (if d.important then (if minify then [] else [' ']) ++ "!important".toList else [])

/-- Declarations, one a line.  The short form leaves out the last semicolon of a body. -/
def declarationsText (style : Style) (level : Nat) (last : Bool) : List Declaration → List Char
  | [] => []
  | d :: ds =>
    indentText style level ++ declarationText style.minify d ++
      (if style.minify && last && ds.isEmpty then [] else [';']) ++ lineEnd style ++
      declarationsText style level last ds

/-- A prelude and the brace behind it. -/
def openText (style : Style) (level : Nat) (head : List Char) : List Char :=
  indentText style level ++ head ++ if style.minify then ['\x7b'] else [' ', '\x7b', '\n']

/-- The brace that ends a body. -/
def closeText (style : Style) (level : Nat) : List Char :=
  indentText style level ++ '\x7d' :: lineEnd style

mutual

/-- The text of a flat rule at a level. -/
def flatText (style : Style) (level : Nat) : Flat → List Char
  | .rule head decls =>
    openText style level head ++ declarationsText style (level + 1) true decls ++
      closeText style level
  | .statement head => indentText style level ++ head ++ ';' :: lineEnd style
  | .group head body =>
    openText style level head ++ flatsText style (level + 1) body ++ closeText style level
  | .declarations decls last => declarationsText style level last decls

/-- The texts of flat rules, one behind the other. -/
def flatsText (style : Style) (level : Nat) : List Flat → List Char
  | [] => []
  | flat :: rest => flatText style level flat ++ flatsText style level rest

end

/-- Any end of a comment inside a text is taken apart. -/
def splitCommentEnds : List Char → List Char
  | [] => []
  | '*' :: '/' :: rest => '*' :: ' ' :: '/' :: splitCommentEnds rest
  | c :: rest => c :: splitCommentEnds rest

/-- The comment at the top. -/
def headerText (style : Style) : List Char :=
  if style.header = "" then
    []
  else
    "/* ".toList ++ splitCommentEnds style.header.toList ++ " */".toList ++ lineEnd style

/-- The text of flat rules at the top level, with an empty line between them. -/
def sheetText (style : Style) (flats : List Flat) : List Char :=
  headerText style ++ (lineEnd style).intercalate (flats.map (flatText style 0))

end Output

/-- The text of rules. -/
def formatRules (style : Style) (rules : List Entry) : Except Misplaced String :=
  (rules.mapM (Output.flatten style.minify [])).map fun flats =>
    String.ofList (Output.sheetText style flats.flatten)

end Cascade

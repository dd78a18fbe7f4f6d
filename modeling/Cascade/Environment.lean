import Cascade.Text.Lines

/-!
# Environments

Named texts that a configuration may refer to, as `$NAME` or as the name between
braces behind a dollar sign.  References with braces are replaced first, and what
they put in is searched for plain references again; what a plain reference puts in
is final.
-/

namespace Cascade

/-- The variables of a process, by name. -/
abbrev Environment := List (String × String)

namespace Environment

/-- The value of a variable; one that is not set is empty. -/
def get (env : Environment) (name : String) : String :=
  (env.lookup name).getD ""

/-- The environment with further variables; what is set already stays.  A value with a null
character cannot be set. -/
def extend (env new : Environment) : Environment :=
  env ++ new.map fun v => (v.1, if v.2.toList.contains '\x00' then "" else v.2)

/-- Replaces references with braces. -/
def expandBraced (env : Environment) : List Char → List Char
  | [] => []
  | '$' :: '\x7b' :: rest =>
    let name := rest.takeWhile (· != '\x7d')
    match _h : rest.dropWhile (· != '\x7d') with
    | [] => '$' :: expandBraced env ('\x7b' :: rest)
    | _ :: behind =>
      if name.isEmpty then
        '$' :: expandBraced env ('\x7b' :: rest)
      else
        (env.get (String.ofList name)).toList ++ expandBraced env behind
  | c :: rest => c :: expandBraced env rest
termination_by s => s.length
decreasing_by
  all_goals simp_wf
  · have := (List.dropWhile_suffix (l := rest) (· != '\x7d')).length_le
    rw [_h] at this
    simp at this
    omega

/-- A character that can start a name. -/
def isNameStart (c : Char) : Bool :=
  c.isAlpha || c == '_'

/-- A character of a name. -/
def isNameChar (c : Char) : Bool :=
  c.isAlphanum || c == '_'

/-- Replaces plain references. -/
def expandPlain (env : Environment) : List Char → List Char
  | [] => []
  | '$' :: c :: rest =>
    if isNameStart c then
      let name := c :: rest.takeWhile isNameChar
      (env.get (String.ofList name)).toList ++ expandPlain env (rest.dropWhile isNameChar)
    else
      '$' :: expandPlain env (c :: rest)
  | c :: rest => c :: expandPlain env rest
termination_by s => s.length
decreasing_by
  all_goals simp_wf
  · have := (List.dropWhile_suffix (l := rest) isNameChar).length_le
    omega

/-- The text with its references replaced. -/
def expand (env : Environment) (s : String) : String :=
  String.ofList (env.expandPlain (env.expandBraced s.toList))

end Environment
end Cascade

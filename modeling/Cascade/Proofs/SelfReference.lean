import Cascade.Sheet.Parser
import Mathlib

/-!
# Variables that stand for themselves

Where the value of a variable is a dollar sign and the name of the variable, using
the variable puts a use of it in front of the cursor again, and reading does not
come to an end.  Such a value is made of a dollar sign that stands before another
use.

**Method.**  `SelfReferring` describes a reader at such a use.  One round of
substitution leads from such a reader to another one, so that values are read
until the budget runs out, however large it is.  `Exhausts f r` says that this
happens to `f` at `r`, and it holds for whatever `f` is a part of.

**Results.**
* `variableUse_selfReferring`: one round of substitution.
* `collect_selfReferring`: a list of values is read for ever.
* `Sheet.selfReference_exhausted`: so is a stylesheet.
-/

namespace Cascade
namespace Read

/-! ## Computations that do not come to an end -/

/-- The budget runs out, however large it is. -/
def Exhausts {α : Type} (f : Nat → Read α) (r : Reader) : Prop :=
  ∀ n, ∃ s, f n r = .error .exhausted s

/-- Without a budget nothing is read. -/
theorem Exhausts.succ {α : Type} {f : Nat → Read α} {r : Reader} (hzero : f 0 = exhausted)
    (h : ∀ n, ∃ s, f (n + 1) r = .error .exhausted s) :
    Exhausts f r := by
  intro n
  cases n with
  | zero => exact ⟨r, by rw [hzero]; rfl⟩
  | succ n => exact h n

/-- The budget ran out. -/
def ranOut {α : Type} : EStateM.Result Stop Reader α → Bool
  | .error .exhausted _ => true
  | _ => false

theorem exists_of_ranOut {α : Type} {o : EStateM.Result Stop Reader α} (h : ranOut o = true) :
    ∃ s, o = .error .exhausted s := by
  unfold ranOut at h
  split at h
  · exact ⟨_, rfl⟩
  · cases h

theorem Exhausts.inScope {α : Type} {f : Nat → Read α} {r : Reader}
    (h : Exhausts f { r with scopes := r.scopes.enter }) :
    Exhausts (fun n => Read.inScope (f n)) r := by
  intro n
  obtain ⟨s, hs⟩ := h n
  exact ⟨_, inScope_run.trans (andFinally_error hs)⟩

theorem Exhausts.nested {α : Type} {f : Nat → Read α} {r : Reader}
    (hroom : r.nesting < r.limits.nestingDepth)
    (h : Exhausts f
      { r with nesting := r.nesting + 1, deepest := max r.deepest (r.nesting + 1) }) :
    Exhausts (fun n => Read.nested (f n)) r := by
  intro n
  obtain ⟨s, hs⟩ := h n
  exact ⟨_, (nested_of_lt hroom).trans (andFinally_error hs)⟩

theorem Exhausts.within {α : Type} {f : Nat → Read α} {r : Reader} {vs : List Value}
    (h : Exhausts f { r with cursor := .ofValues vs r.cursor.depth }) :
    Exhausts (fun n => Read.within vs (f n)) r := by
  intro n
  obtain ⟨s, hs⟩ := h n
  exact ⟨_, (within_run vs).trans (andFinally_error hs)⟩

/-! ## One round of substitution -/

/-- The tokens are a dollar sign and the name of a variable. -/
structure IsUse (name : String) (d t : Token) : Prop where
  dollar : d.isDelim "$" = true
  ident : t.type = .ident
  text : t.text = name

theorem IsUse.type {name : String} {d t : Token} (h : IsUse name d t) :
    d.type = .delim :=
  (Token.isDelim_iff.mp h.dollar).1

/-- The reader is at a use of a variable that stands for a use of itself. -/
structure SelfReferring (name : String) (behind : List Item) (r : Reader) : Prop where
  use : ∃ d t, IsUse name d t ∧ r.cursor.items = .value (.token d) :: .value (.token t) :: behind
  bound : ∃ d t, IsUse name d t ∧ r.scopes.findVariable? name = some [.token d, .token t]
  free : r.scopes.isParameter name = false
  undefined : ∀ t, Item.peek? behind (Item.blankCount behind) = some (.token t) →
    t.type ≠ .colon ∧ t.isDelim "=" = false

variable {name : String} {behind : List Item} {r : Reader}

/-- The reader behind values that were read. -/
def Behind (r : Reader) (items : List Item) (last : Position) : Reader :=
  { r with cursor := { r.cursor with items := items, last := last } }

theorem consumeDelim_of_items {t : Token} {text : String} {items : List Item} (what : String)
    (hitems : r.cursor.items = .value (.token t) :: items) (ht : t.isDelim text = true) :
    scan (Scan.consumeDelim text what) r = .ok t (Behind r items t.position) := by
  simp [scan, Scan.consumeDelim, Cursor.peekToken, Cursor.peek, Cursor.next, Cursor.dropMarkers,
    Item.peek?, Value.start, Behind, hitems, ht]

theorem consume_of_items {t : Token} {type : TokenType} {items : List Item} (what : String)
    (hitems : r.cursor.items = .value (.token t) :: items) (ht : t.type = type) :
    scan (Scan.consume type what) r = .ok t (Behind r items t.position) := by
  simp [scan, Scan.consume, Cursor.peekToken, Cursor.peek, Cursor.next, Cursor.dropMarkers,
    Item.peek?, Value.start, Behind, hitems, ht]

/-- The bound values are put in front of the cursor. -/
theorem resolve_of_bound (ref : Reference) {values : List Value}
    (hbound : r.scopes.findVariable? ref.name.text = some values)
    (hfree : r.scopes.isParameter ref.name.text = false) :
    resolve ref r = .ok (.substituted ref) { r with cursor := r.cursor.splice values } := by
  unfold resolve
  rw [bind_ok (show look (·.scopes) r = .ok r.scopes r from rfl)]
  simp only [hfree, hbound]
  rfl

/-- Substituting the use leads to a use of the same variable. -/
theorem variableUse_selfReferring (h : SelfReferring name behind r) (n : Nat) :
    ∃ ref s, SelfReferring name behind s ∧ variableUse (n + 1) r = .ok (.substituted ref) s := by
  obtain ⟨d, t, huse, hitems⟩ := h.use
  obtain ⟨e, u, hbound, hvalues⟩ := h.bound
  have hdollar := consumeDelim_of_items "Expected '$'" hitems huse.dollar
  have hname : scan (Scan.consume .ident "Expected variable name after '$'")
      (Behind r (.value (.token t) :: behind) d.position) = .ok t (Behind r behind t.position) :=
    consume_of_items _ rfl huse.ident
  have hresolve := resolve_of_bound ⟨d, t⟩ (r := Behind r behind t.position)
    (huse.text ▸ hvalues) (huse.text ▸ h.free)
  refine ⟨⟨d, t⟩, { Behind r behind t.position with
    cursor := (Behind r behind t.position).cursor.splice [.token e, .token u] },
    { h with use := ⟨e, u, hbound, rfl⟩ }, ?_⟩
  rw [variableUse, bind_ok hdollar, bind_ok hname]
  simp only
  rw [bind_ok (peek_run _ _), bind_ok (peek_run _ _)]
  cases hoperator : (Behind r behind t.position).cursor.peekToken
      (Behind r behind t.position).cursor.blankOffset with
  | none => exact hresolve
  | some operator =>
    have hpeek : Item.peek? behind (Item.blankCount behind) = some (.token operator) := by
      unfold Cursor.peekToken at hoperator
      split at hoperator
      · rename_i u hpeek
        rw [Option.some.inj hoperator] at hpeek
        exact hpeek
      · cases hoperator
    obtain ⟨hcolon, hequals⟩ := h.undefined operator hpeek
    simp only [hcolon, hequals]
    exact hresolve

theorem SelfReferring.isVariableStart (h : SelfReferring name behind r) :
    isVariableStart r = .ok true r := by
  obtain ⟨d, t, huse, hitems⟩ := h.use
  have hdollar : r.cursor.checkDelim 0 "$" = true := by
    simp [Cursor.checkDelim, Cursor.peek, hitems, Item.peek?, Value.isDelim, huse.dollar]
  have hname : r.cursor.check 1 .ident = true := by
    simp [Cursor.check, Cursor.peek, hitems, Item.peek?, Value.hasType, huse.ident]
  simp [Read.isVariableStart, peek, hdollar, hname]

/-- The front value at such a use is a delimiter. -/
theorem SelfReferring.front (h : SelfReferring name behind r) :
    ∃ d : Token, r.cursor.peek 0 = some (.token d) ∧ d.type = .delim := by
  obtain ⟨d, t, huse, hitems⟩ := h.use
  exact ⟨d, by simp [Cursor.peek, hitems, Item.peek?], huse.type⟩

/-- No value is read at such a use: the reader comes to one again, or the budget runs out. -/
theorem value_selfReferring (h : SelfReferring name behind r) (n : Nat) :
    (∃ s, value n r = .error .exhausted s) ∨
      ∃ s, SelfReferring name behind s ∧ value n r = .ok none s := by
  cases n with
  | zero => exact .inl ⟨r, by rw [value_zero]; rfl⟩
  | succ n =>
    have hvalue : value (n + 1) r = (do return (← variableUse n).value?) r := by
      obtain ⟨d, hfront, htype⟩ := h.front
      have hopener : d.type.isOpener = false := by rw [htype]; rfl
      have hfunction : d.type ≠ .function := by rw [htype]; decide
      rw [value, bind_ok (peek_run _ _), hfront]
      simp only [hopener, hfunction, if_false, Bool.false_eq_true]
      rw [bind_ok h.isVariableStart]
      simp only [if_true]
    rw [hvalue]
    cases n with
    | zero =>
      refine .inl ⟨r, bind_error ?_⟩
      rw [variableUse_zero]
      rfl
    | succ n =>
      obtain ⟨ref, s, hs, huse⟩ := variableUse_selfReferring h n
      exact .inr ⟨s, hs, bind_ok huse⟩

/-- A value list that does not end before such a use is read for ever. -/
theorem collect_selfReferring {β : Type} {ending : List Value → Read (Option β)} {read : List Value}
    (hending : ∀ s, SelfReferring name behind s → ending read s = .ok none s)
    (h : SelfReferring name behind r) :
    Exhausts (fun n => collect n ending read) r := by
  intro n
  change ∃ s, collect n ending read r = .error .exhausted s
  induction n generalizing r with
  | zero => exact ⟨r, by rw [collect_zero]; rfl⟩
  | succ n ih =>
    rw [collect, bind_ok (hending r h)]
    simp only
    rcases value_selfReferring h n with ⟨s, hvalue⟩ | ⟨s, hs, hvalue⟩
    · exact ⟨s, bind_error hvalue⟩
    · obtain ⟨t, ht⟩ := ih hs
      exact ⟨t, (bind_ok hvalue).trans ht⟩

/-- The value of a declaration does not end before a use. -/
theorem declarationEnd_selfReferring (h : SelfReferring name behind r) (read : List Value) :
    declarationEnd read r = .ok none r := by
  obtain ⟨d, hfront, htype⟩ := h.front
  have hmarker : r.cursor.atExpansionEnd = false := by
    obtain ⟨d, t, -, hitems⟩ := h.use
    simp [Cursor.atExpansionEnd, hitems]
  have hsemicolon : (Value.token d).hasType .semicolon = false := by
    simp [Value.hasType, htype]
  rw [declarationEnd, bind_ok (peek_run _ _), hfront]
  simp only
  rw [bind_ok (peek_run _ _), hmarker]
  simp only [hsemicolon]
  rfl

/-- A declaration whose value is such a use is read for ever. -/
theorem declaration_selfReferring {property colon : Token} {items : List Item}
    (hitems : r.cursor.items = .value (.token property) :: .value (.token colon) :: items)
    (hproperty : property.type = .ident) (hcolon : colon.type = .colon)
    (huse : SelfReferring name behind (Behind r items colon.position)) :
    Exhausts declaration r := by
  have hblank : (Value.token colon).isWhitespace = false := by
    simp [Value.isWhitespace, Value.hasType, hcolon]
  have hskip : skipWhitespace (Behind r (.value (.token colon) :: items) property.position) =
      .ok () (Behind r (.value (.token colon) :: items) property.position) := by
    simp [skipWhitespace, scan, Scan.skipWhitespace, Cursor.skipWhitespace, Cursor.skipBlanks,
      hblank, Behind]
  intro n
  obtain ⟨s, hs⟩ := collect_selfReferring (fun s hs => declarationEnd_selfReferring hs []) huse n
  refine ⟨s, ?_⟩
  rw [declaration, bind_ok (consume_of_items _ hitems hproperty), bind_ok hskip,
    bind_ok (consume_of_items _ rfl hcolon)]
  exact bind_error hs

/-- A statement that starts with a name is a declaration. -/
theorem styleStatement_of_ident {property : Token}
    (hfront : r.cursor.peek 0 = some (.token property)) (hproperty : property.type = .ident) (n : Nat) :
    styleStatement (n + 1) (.token property) r =
      (do return some (.declaration (← declaration n)) : Read (Option Entry)) r := by
  have hstart : isVariableStart r = .ok false r := by
    simp [isVariableStart, peek, Cursor.checkDelim, hfront, Value.isDelim, Token.isDelim, hproperty]
  rw [styleStatement]
  simp only [hproperty]
  exact bind_ok hstart

/-- Entries that start with such a declaration are read for ever. -/
theorem styleEntries_selfReferring {property colon : Token} {items : List Item} (read : List Entry)
    (hitems : r.cursor.items = .value (.token property) :: .value (.token colon) :: items)
    (hproperty : property.type = .ident) (hcolon : colon.type = .colon)
    (huse : SelfReferring name behind (Behind r items colon.position)) :
    Exhausts (fun n => styleEntries n read) r := by
  have hfront : r.cursor.peek 0 = some (.token property) := by
    simp [Cursor.peek, hitems, Item.peek?]
  have hstatement : Exhausts (fun n => styleStatement n (.token property)) r := by
    refine .succ (styleStatement_zero _) fun n => ?_
    obtain ⟨s, hs⟩ := declaration_selfReferring hitems hproperty hcolon huse n
    exact ⟨s, (styleStatement_of_ident hfront hproperty n).trans (bind_error hs)⟩
  refine .succ (styleEntries_zero _) fun n => ?_
  obtain ⟨s, hs⟩ := hstatement n
  refine ⟨s, ?_⟩
  rw [styleEntries, bind_ok (peek_run _ _), hfront]
  exact bind_error hs

/-- A rule whose block is such a declaration is read for ever. -/
theorem styleRule_selfReferring (name : String) {q : QualifiedRule} {property colon d t : Token}
    {selectors : SelectorList} (hprelude : Selector.parse q.prelude = .ok selectors)
    (hcontents : q.block.contents = [.token property, .token colon, .token d, .token t])
    (hproperty : property.type = .ident) (hcolon : colon.type = .colon) (huse : IsUse name d t)
    (hbound : ∃ d t, IsUse name d t ∧ r.scopes.findVariable? name = some [.token d, .token t])
    (hfree : r.scopes.isParameter name = false) (hroom : r.nesting < r.limits.nestingDepth) :
    Exhausts (fun n => styleRule n q) r := by
  -- The reader inside the block, in one more scope.
  let inside : Reader := { r with
    cursor := .ofValues q.block.contents r.cursor.depth
    scopes := r.scopes.enter
    nesting := r.nesting + 1
    deepest := max r.deepest (r.nesting + 1) }
  have hitems : inside.cursor.items = [.value (.token property), .value (.token colon),
      .value (.token d), .value (.token t)] := by
    simp [inside, Cursor.ofValues, hcontents]
  have hself : SelfReferring name [] (Behind inside [.value (.token d), .value (.token t)]
      colon.position) := {
    use := ⟨d, t, huse, rfl⟩
    bound := hbound
    free := by simpa [Behind, inside, Scopes.isParameter, Scopes.enter, Scopes.frames] using hfree
    undefined := by simp [Item.peek?] }
  have hinside : Exhausts (fun n => styleEntries n []) inside :=
    styleEntries_selfReferring [] hitems hproperty hcolon hself
  have hblock : Exhausts (fun n => styleBlock n q.block) r := by
    refine .succ (styleBlock_zero _) fun n => ?_
    rw [styleBlock]
    exact Exhausts.within (.nested hroom hinside.inScope) n
  refine .succ (styleRule_zero _) fun n => ?_
  obtain ⟨s, hs⟩ := hblock n
  refine ⟨s, ?_⟩
  rw [styleRule, hprelude]
  exact bind_error hs

end Read

/-! ## A stylesheet that is read for ever -/

namespace Sheet

/-- The value of the second variable is a dollar sign and the name of the variable, which the first
variable brings in. -/
def selfReference : String :=
  "$w:v;$v:$$w;a\x7bb:$v\x7d"

/-- The two definitions are read, and the rule behind them up to its block. -/
theorem nextRule_selfReference (n : Nat) :
    (∃ s, Read.nextRule n (.ofTokens (tokenize selfReference) {}) = .error .exhausted s) ∨
      ∃ q s, Read.nextRule n (.ofTokens (tokenize selfReference) {}) =
          .ok (some (.qualified q)) s ∧
        Read.Exhausts (fun n => Read.styleRule n q) s := by
  have hsmall : ∀ n < 8, Read.ranOut
      (Read.nextRule n (.ofTokens (tokenize selfReference) {})) = true := by
    decide +kernel
  by_cases hn : n < 8
  · exact .inl (Read.exists_of_ranOut (hsmall n hn))
  · obtain ⟨m, rfl⟩ : ∃ m, n = m + 8 := ⟨n - 8, by omega⟩
    right
    obtain ⟨o, h⟩ : ∃ o, Read.nextRule (m + 8) (.ofTokens (tokenize selfReference) {}) = o :=
      ⟨_, rfl⟩
    rw [h]
    cbv at h
    subst h
    refine ⟨_, _, rfl, ?_⟩
    exact Read.styleRule_selfReferring "v" (by rfl) rfl rfl rfl ⟨rfl, rfl, rfl⟩
      ⟨_, _, ⟨rfl, rfl, rfl⟩, rfl⟩ rfl (by decide)

theorem exhausts_selfReference :
    Read.Exhausts (fun n => Read.ruleList n []) (.ofTokens (tokenize selfReference) {}) := by
  refine .succ (Read.ruleList_zero _) fun n => ?_
  rw [Read.ruleList]
  rcases nextRule_selfReference n with ⟨s, hs⟩ | ⟨q, s, hs, hrule⟩
  · exact ⟨s, Read.bind_error hs⟩
  · obtain ⟨t, ht⟩ := hrule n
    exact ⟨t, (Read.bind_ok hs).trans (Read.bind_error ht)⟩

/-- The stylesheet has no at-rule at all, and yet no budget is large enough to read it to its end, or
to a fault. -/
theorem selfReference_exhausted :
    (∀ t ∈ tokenize selfReference, t.type ≠ .atKeyword) ∧
      ¬ ∃ budget, (parseTokens budget {} "" (tokenize selfReference)).1 ≠ .error .exhausted := by
  refine ⟨by decide +kernel, ?_⟩
  rintro ⟨budget, hbudget⟩
  obtain ⟨s, hs⟩ := exhausts_selfReference budget
  have hrun : Read.ruleList budget [] (.ofTokens (tokenize selfReference) {}) =
      .error .exhausted s := hs
  refine hbudget ?_
  unfold parseTokens run
  rw [hrun]
  rfl

end Sheet

end Cascade

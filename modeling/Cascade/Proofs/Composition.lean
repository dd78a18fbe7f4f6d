import Cascade.Proofs.Balance

/-!
# What computations are made of

Every computation of reading is put together from a few primitives: looks, scans of
the front of the cursor, values and bodies put in front, changes of the scopes and
records, faults, and the brackets around other computations.  This module says so,
function by function, so that a statement about all computations can be proved by
going through the primitives.

**Method.**  `Composed x` says how `x` is made of primitives, by sequencing and by
the brackets around computations.  Two of the ways to make a computation look at
the limits: `nested`, which opens a block, and `bounded`, which includes mixins.
All others are blind to them.  A scan is made of looks and of steps that read from the
front of a cursor (`Scan.Composed`).

**Results.**
* `composed_values`, `composed_includeMixins`, `composed_nextRule`,
  `composed_bodies`: what computations are made of.
* `composed_perform`: what all parsing operations are made of.
-/

namespace Cascade

/-! ## Scans -/

/-- The second cursor is what reading from the front makes of the first one. -/
inductive Cursor.Forth (c : Cursor) : Cursor → Prop
  | refl : Forth c c
  | next {d : Cursor} : Forth c d → Forth c d.next.2
  | skipWhitespace {d : Cursor} : Forth c d → Forth c d.skipWhitespace

theorem Cursor.Forth.trans {c d e : Cursor} (hcd : c.Forth d) (hde : d.Forth e) :
    c.Forth e := by
  induction hde with
  | refl => exact hcd
  | next _ ih => exact .next ih
  | skipWhitespace _ ih => exact .skipWhitespace ih

namespace Scan

variable {α β : Type}

/-- The cursor that a scan leaves behind, with a result or at a fault. -/
def after (x : Scan α) (c : Cursor) : Cursor :=
  match x c with
  | .ok _ d => d
  | .error _ d => d

theorem after_ok {x : Scan α} {c d : Cursor} {a : α} (h : x c = .ok a d) :
    x.after c = d := by
  simp [after, h]

theorem after_bind_ok {x : Scan α} {f : α → Scan β} {c d : Cursor} {a : α} (h : x c = .ok a d) :
    (x >>= f).after c = (f a).after d := by
  unfold after
  change (match EStateM.bind x f c with | .ok _ e => e | .error _ e => e) = _
  rw [EStateM.bind, h]

theorem after_bind_error {x : Scan α} {f : α → Scan β} {c d : Cursor} {e : Diagnostic}
    (h : x c = .error e d) :
    (x >>= f).after c = x.after c := by
  unfold after
  change (match EStateM.bind x f c with | .ok _ e => e | .error _ e => e) = _
  rw [EStateM.bind, h]

/-- What scans are made of.  They do nothing to a cursor but read from its front. -/
inductive Composed : {α : Type} → Scan α → Prop
  | pure {α : Type} (a : α) : Composed (Pure.pure a)
  | bind {α β : Type} {x : Scan α} {f : α → Scan β} :
      Composed x → (∀ a, Composed (f a)) → Composed (x >>= f)
  | look {α : Type} (f : Cursor → α) : Composed (look f)
  | failAt {α : Type} (n : Nat) (cause : Cause) : Composed (failAt n cause : Scan α)
  | next : Composed next
  | skipWhitespace : Composed skipWhitespace
  | consume (type : TokenType) (what : String) : Composed (consume type what)
  | consumeDelim (text what : String) : Composed (consumeDelim text what)

/-- A token that is wanted is read, and one that is not is left. -/
theorem after_consume (type : TokenType) (what : String) (c : Cursor) :
    (consume type what).after c = c ∨ (consume type what).after c = c.next.2 := by
  unfold after consume
  cases c.peekToken 0 with
  | none => exact .inl rfl
  | some t =>
      dsimp only
      by_cases htype : t.type = type
      · rw [if_pos htype]
        exact .inr rfl
      · rw [if_neg htype]
        exact .inl rfl

theorem after_consumeDelim (text what : String) (c : Cursor) :
    (consumeDelim text what).after c = c ∨ (consumeDelim text what).after c = c.next.2 := by
  unfold after consumeDelim
  cases c.peekToken 0 with
  | none => exact .inl rfl
  | some t =>
      dsimp only
      cases t.isDelim text with
      | true => exact .inr rfl
      | false => exact .inl rfl

/-- A scan leaves behind what reading from the front makes of the cursor. -/
theorem Composed.forth {x : Scan α} (h : Composed x) (c : Cursor) :
    c.Forth (x.after c) := by
  have hread (c d : Cursor) (hd : d = c ∨ d = c.next.2) : c.Forth d := by
    rcases hd with rfl | rfl
    · exact .refl
    · exact .next .refl
  induction h generalizing c with
  | pure | look | failAt => exact .refl
  | @bind _ _ x f _ _ ihx ihf =>
      have hfirst := ihx c
      cases hrun : x c with
      | ok a d =>
          rw [after_ok hrun] at hfirst
          rw [after_bind_ok hrun]
          exact hfirst.trans (ihf a d)
      | error e d => rwa [after_bind_error hrun]
  | next => exact .next .refl
  | skipWhitespace => exact .skipWhitespace .refl
  | consume type what => exact hread c _ (after_consume type what c)
  | consumeDelim text what => exact hread c _ (after_consumeDelim text what c)

theorem composed_opener :
    Composed opener := by
  unfold opener
  refine .bind (.look _) fun front => ?_
  split
  · exact .failAt _ _
  · split
    · exact .failAt _ _
    · exact .bind .next fun _ => .pure _

theorem composed_rawContents (opener : Token) (closer : TokenType) :
    ∀ (n : Nat) (due : List TokenType) (read : List Value),
      Composed (rawContents opener closer n due read)
  | 0, _, _ => .pure _
  | n + 1, due, read => by
      rw [rawContents]
      refine .bind .next fun front => ?_
      split
      · exact .pure _
      · split
        · exact .pure _
        · exact composed_rawContents opener closer n _ _
      · exact composed_rawContents opener closer n _ _

theorem composed_rawBlock :
    Composed rawBlock := by
  unfold rawBlock
  refine .bind composed_opener fun bracket => .bind (.look _) fun bound => ?_
  exact composed_rawContents _ _ _ _ _

end Scan

/-! ## Computations -/

namespace Read

variable {α β : Type}

/-- The computation, unless a number of further mixins is too much; then a fault at the keyword. -/
def bounded (keyword : Token) (first : String) (count : Nat) (x : Read α) : Read α := do
  let limit ← look (·.limits.includeDepth)
  if limit < (← peek (·.depth)) + count then
    fail (.atToken (.includeLimit first limit) keyword)
  else
    x

theorem bounded_run (keyword : Token) (first : String) (count : Nat) (x : Read α) (r : Reader) :
    bounded keyword first count x r =
      if r.limits.includeDepth < r.cursor.depth + count then
        fail (.atToken (.includeLimit first r.limits.includeDepth) keyword) r
      else
        x r := by
  change (if _ then _ else _ : Read α) r = _
  split <;> rfl

/-- What computations are made of. -/
inductive Composed : {α : Type} → Read α → Prop
  | pure {α : Type} (a : α) : Composed (Pure.pure a)
  | bind {α β : Type} {x : Read α} {f : α → Read β} :
      Composed x → (∀ a, Composed (f a)) → Composed (x >>= f)
  | peek {α : Type} (f : Cursor → α) : Composed (Read.peek f)
  | lookScopes {α : Type} (f : Scopes → α) : Composed (look fun r => f r.scopes)
  | fail {α : Type} (d : Diagnostic) : Composed (fail d : Read α)
  | failAt {α : Type} (n : Nat) (cause : Cause) : Composed (failAt n cause : Read α)
  | exhausted {α : Type} : Composed (exhausted : Read α)
  | scan {α : Type} {x : Scan α} : x.Composed → Composed (scan x)
  | splice (vs : List Value) : Composed (splice vs)
  | updateScopes (g : Scopes → Scopes) : Composed (updateScopes g)
  | record (e : Event) : Composed (record e)
  | remember (group : Value) : Composed (remember group)
  | nested {α : Type} {x : Read α} : Composed x → Composed (nested x)
  | inScope {α : Type} {x : Read α} : Composed x → Composed (inScope x)
  | capturing {α : Type} {x : Read α} (names : List String) : Composed x → Composed (capturing names x)
  | within {α : Type} {x : Read α} (vs : List Value) : Composed x → Composed (within vs x)
  | bounded (keyword : Token) (first : String) (instances : List (String × List Value)) :
      Composed (bounded keyword first instances.length (expand instances))

namespace Composed

theorem next : Composed next :=
  .scan .next

theorem skipWhitespace : Composed skipWhitespace :=
  .scan .skipWhitespace

theorem consume (type : TokenType) (what : String) : Composed (Read.scan (Scan.consume type what)) :=
  .scan (.consume type what)

theorem consumeDelim (text what : String) : Composed (Read.scan (Scan.consumeDelim text what)) :=
  .scan (.consumeDelim text what)

theorem opener : Composed (Read.scan Scan.opener) :=
  .scan Scan.composed_opener

theorem rawBlock : Composed (Read.scan Scan.rawBlock) :=
  .scan Scan.composed_rawBlock

end Composed

/-! ## Values -/

theorem composed_resolve (ref : Reference) :
    Composed (resolve ref) := by
  unfold resolve
  refine .bind (.lookScopes fun s => s) fun scopes => ?_
  split
  · exact .pure _
  · split
    · exact .bind (.splice _) fun _ => .pure _
    · split
      · exact .pure _
      · exact .fail _

theorem composed_skipInline :
    ∀ n : Nat, Composed (skipInline n)
  | 0 => .pure _
  | n + 1 => by
      rw [skipInline]
      refine .bind (.peek _) fun front => ?_
      split
      · split
        · exact .bind .next fun _ => composed_skipInline n
        · exact .pure _
      · exact .pure _

theorem composed_blockEnd (opener : Token) (closer : TokenType) (read : List Value) :
    Composed (blockEnd opener closer read) := by
  unfold blockEnd
  refine .bind (.peek _) fun front => ?_
  split
  · exact .pure _
  · split
    · exact .bind .next fun _ => .pure _
    · exact .pure _

theorem composed_definitionEnd (read : List Value) :
    Composed (definitionEnd read) := by
  unfold definitionEnd
  refine .bind (.peek _) fun front => ?_
  split
  · exact .pure _
  · split
    · exact .bind .next fun _ => .pure _
    · exact .pure _
  · exact .pure _

/-- What the computations that read values are made of, at a budget. -/
structure ComposedValues (n : Nat) : Prop where
  value : Composed (value n)
  collect : ∀ {β : Type} (ending : List Value → Read (Option β)) (read : List Value),
    (∀ read, Composed (ending read)) → Composed (collect n ending read)
  block : Composed (block n)
  call : Composed (call n)
  arguments : ∀ name state, Composed (arguments n name state)
  variableUse : Composed (variableUse n)
  valueList : Composed (valueList n)

theorem composed_values (n : Nat) :
    ComposedValues n := by
  induction n with
  | zero =>
      constructor <;> intros <;> simp only [value_zero, collect_zero, block_zero, call_zero,
        arguments_zero, variableUse_zero, valueList_zero] <;> exact .exhausted
  | succ n ih =>
      refine ⟨?_, ?_, ?_, ?_, ?_, ?_, ?_⟩
      · rw [Read.value]
        refine .bind (.peek _) fun front => ?_
        split
        · exact .bind .next fun _ => .bind (composed_resolve _) fun _ => .pure _
        · split
          · exact .bind ih.block fun _ => .pure _
          · split
            · exact .bind ih.call fun _ => .pure _
            · refine .bind (.peek _) fun isStart => ?_
              split
              · exact .bind ih.variableUse fun _ => .pure _
              · exact .next
        · exact .bind (.remember _) fun _ => .next
        · exact .next
      · intro β ending read hending
        rw [Read.collect]
        refine .bind (hending read) fun result => ?_
        split
        · exact .pure _
        · refine .bind ih.value fun v => ?_
          split
          · exact ih.collect _ _ hending
          · exact ih.collect _ _ hending
      · rw [Read.block]
        refine .bind .opener fun bracket => ?_
        exact (ih.collect _ _ (composed_blockEnd _ _)).inScope.nested
      · rw [Read.call]
        exact .bind (.consume _ _) fun name => (ih.arguments name _).nested
      · intro name state
        rw [Read.arguments]
        refine .bind (.peek _) fun front => ?_
        split
        · exact .pure _
        · split
          · exact .bind .next fun _ => .pure _
          · split
            · exact .bind .next fun _ => ih.arguments _ _
            · refine .bind ih.value fun v => ?_
              split
              · exact ih.arguments _ _
              · exact ih.arguments _ _
      · rw [Read.variableUse]
        refine .bind (.consumeDelim _ _) fun dollar => .bind (.consume _ _) fun name => ?_
        refine .bind (.peek _) fun offset => .bind (.peek _) fun operator => ?_
        split
        · split
          · refine .bind .skipWhitespace fun _ => .bind .next fun _ => ?_
            refine .bind ih.valueList fun values => .bind (.updateScopes _) fun _ => ?_
            exact .bind (.lookScopes _) fun depth => .bind (.record _) fun _ => .pure _
          · exact composed_resolve _
        · exact composed_resolve _
      · rw [Read.valueList]
        refine .bind (.peek _) fun length => .bind (composed_skipInline _) fun _ => ?_
        exact ih.collect _ _ composed_definitionEnd

/-! ## Mixins -/

theorem composed_fallbackEnd (read : List Value) :
    Composed (fallbackEnd read) := by
  unfold fallbackEnd
  refine .bind (.peek _) fun front => ?_
  split
  · exact .pure _
  · split
    · exact .pure _
    · exact .pure _

theorem composed_parameters (mixin : Token) :
    ∀ (n : Nat) (seenDefault : Bool) (read : List Parameter),
      Composed (parameters mixin n seenDefault read)
  | 0, _, _ => .exhausted
  | n + 1, seenDefault, read => by
      rw [parameters]
      refine .bind .skipWhitespace fun _ => .bind (.peek _) fun atEnd => ?_
      split
      · exact .failAt _ _
      · refine .bind (.peek _) fun closes => ?_
        split
        · exact .bind .next fun _ => .pure _
        · refine .bind (.consumeDelim _ _) fun _ => .bind (.consume _ _) fun name => ?_
          refine .bind .skipWhitespace fun _ => .bind (.peek _) fun hasDefault => ?_
          -- what follows a parameter is the same with and without a default
          have hrest (fallback : Option (List Value)) : Composed (do
              Read.skipWhitespace
              if ← Read.peek (·.check 0 .comma) then
                let _ ← Read.next
                parameters mixin n (seenDefault || hasDefault) (⟨name.text, name, fallback⟩ :: read)
              else if ← Read.peek (·.check 0 .closeParen) then
                parameters mixin n (seenDefault || hasDefault) (⟨name.text, name, fallback⟩ :: read)
              else
                Read.failAt 0 .parameterSeparator) := by
            refine .bind .skipWhitespace fun _ => .bind (.peek _) fun comma => ?_
            split
            · exact .bind .next fun _ => composed_parameters mixin n _ _
            · refine .bind (.peek _) fun closes => ?_
              split
              · exact composed_parameters mixin n _ _
              · exact .failAt _ _
          dsimp only
          split
          · refine .bind .next fun _ => ?_
            exact .bind ((composed_values n).collect _ _ composed_fallbackEnd) fun _ =>
              .bind (.pure _) hrest
          · split
            · exact .bind (.fail _) hrest
            · exact .bind (.pure _) hrest

theorem composed_mixinHead (n : Nat) :
    Composed (mixinHead n) := by
  unfold mixinHead
  refine .bind (.peek _) fun front => ?_
  split
  · split
    · exact .bind .next fun _ => .pure _
    · split
      · exact .bind .next fun _ => .bind (composed_parameters _ n _ _) fun _ => .pure _
      · exact .failAt _ _
  · exact .failAt _ _

theorem composed_defineMixin (n : Nat) :
    Composed (defineMixin n) := by
  unfold defineMixin
  refine .bind .skipWhitespace fun _ => .bind (composed_mixinHead n) fun head => ?_
  refine .bind .skipWhitespace fun _ => .bind (.peek _) fun front => ?_
  have hset (body : List Value) (k : Nat) : Composed (do
      Read.updateScopes (·.setMixin head.1.text ⟨head.2, body⟩)
      Read.record (.mixinDefined head.1.text k head.1.position.line)) :=
    .bind (.updateScopes _) fun _ => .record _
  dsimp only
  split
  · split
    · refine .bind ((composed_values n).block.capturing _) fun b => ?_
      exact .bind (.pure _) fun body => hset body _
    · exact .bind (.failAt _ _) fun body => hset body _
  · split
    · exact .bind .next fun _ => .bind (.pure _) fun body => hset body _
    · exact .bind (.failAt _ _) fun body => hset body _
  · exact .bind (.failAt _ _) fun body => hset body _

theorem composed_instantiate (name : Token) (args : List (List Value)) :
    Composed (instantiate name args) := by
  unfold instantiate
  refine .bind (.lookScopes fun s => s) fun scopes => ?_
  split
  · exact .fail _
  · split
    · exact .pure _
    · exact .fail _

theorem composed_targets :
    ∀ (n : Nat) (read : List (String × List Value)), Composed (targets n read)
  | 0, _ => .exhausted
  | n + 1, read => by
      rw [targets]
      refine .bind .skipWhitespace fun _ => .bind (.peek _) fun front => ?_
      split
      · exact .pure _
      · split
        · exact .bind .next fun _ => .pure _
        · split
          · exact .bind .next fun _ => composed_targets n _
          · split
            · refine .bind .next fun _ => ?_
              exact .bind (composed_instantiate _ _) fun _ => composed_targets n _
            · split
              · refine .bind (composed_values n).call fun c => ?_
                exact .bind (composed_instantiate _ _) fun _ => composed_targets n _
              · exact .failAt _ _
      · refine .bind .next fun _ => ?_
        exact .bind (composed_instantiate _ _) fun _ => composed_targets n _
      · exact .failAt _ _

theorem composed_includeMixins (n : Nat) (keyword : Token) :
    Composed (includeMixins n keyword) := by
  unfold includeMixins
  refine .bind (composed_targets n _) fun reversed => ?_
  split
  · exact .fail _
  · exact .bounded keyword _ _

/-! ## Rules -/

theorem composed_expandAlias (name : Token) (values : List Value) :
    Composed (expandAlias name values) := by
  unfold expandAlias
  exact .bind (.splice _) fun _ => .record _

theorem composed_atRuleEnd (name : Token) (read : List Value) :
    Composed (atRuleEnd name read) := by
  unfold atRuleEnd
  refine .bind (.peek _) fun front => ?_
  split
  · exact .pure _
  · split
    · exact .bind .next fun _ => .pure _
    · split
      · exact .bind .rawBlock fun _ => .pure _
      · exact .pure _
  · split
    · exact .bind .next fun _ => .pure _
    · exact .pure _
  · exact .pure _

theorem composed_aliasOrRule (n : Nat) (name : Token) :
    Composed (aliasOrRule n name) := by
  have hrule : Composed (do return some (← collect n (atRuleEnd name) []) : Read (Option AtRule)) :=
    .bind ((composed_values n).collect _ _ (composed_atRuleEnd name)) fun _ => .pure _
  unfold aliasOrRule
  split
  · refine .bind (.peek _) fun offset => .bind (.peek _) fun defines => ?_
    split
    · refine .bind .skipWhitespace fun _ => .bind .next fun _ => ?_
      refine .bind (composed_values n).valueList fun values => .bind (.updateScopes _) fun _ => ?_
      exact .bind (.record _) fun _ => .pure _
    · refine .bind (.lookScopes fun s => s) fun scopes => ?_
      split
      · exact .bind (composed_expandAlias _ _) fun _ => .pure _
      · exact hrule
  · exact hrule

theorem composed_atRule (n : Nat) :
    Composed (atRule n) := by
  unfold atRule
  refine .bind (.consume _ _) fun name => ?_
  dsimp only
  split
  · exact .bind (composed_defineMixin n) fun _ => .pure _
  · split
    · exact .bind (composed_includeMixins n name) fun _ => .pure _
    · exact composed_aliasOrRule n name

theorem composed_qualifiedEnd (read : List Value) :
    Composed (qualifiedEnd read) := by
  unfold qualifiedEnd
  refine .bind (.peek _) fun front => ?_
  split
  · exact .failAt _ _
  · split
    · exact .bind .rawBlock fun _ => .pure _
    · exact .pure _
  · split
    · exact .bind .next fun _ => .pure _
    · exact .pure _
  · exact .pure _

theorem composed_qualifiedRule (n : Nat) :
    Composed (qualifiedRule n) :=
  (composed_values n).collect _ _ composed_qualifiedEnd

theorem composed_nextRule :
    ∀ n : Nat, Composed (nextRule n)
  | 0 => .exhausted
  | n + 1 => by
      have hqualified :
          Composed (do return some (.qualified (← qualifiedRule n)) : Read (Option Rule)) :=
        .bind (composed_qualifiedRule n) fun _ => .pure _
      rw [nextRule]
      refine .bind .skipWhitespace fun _ => .bind (.peek _) fun front => ?_
      split
      · exact .pure _
      · split
        · split
          · exact .bind .next fun _ => composed_nextRule n
          · split
            · refine .bind (composed_atRule n) fun rule => ?_
              split
              · exact .pure _
              · exact composed_nextRule n
            · refine .bind (.peek _) fun isStart => ?_
              split
              · exact .bind (composed_values n).variableUse fun _ => composed_nextRule n
              · exact hqualified
        · exact hqualified

/-! ## Bodies -/

theorem composed_declarationEnd (read : List Value) :
    Composed (declarationEnd read) := by
  unfold declarationEnd
  refine .bind (.peek _) fun front => ?_
  split
  · exact .pure _
  · refine .bind (.peek _) fun ends => ?_
    split
    · exact .pure _
    · split
      · exact .bind .next fun _ => .pure _
      · exact .pure _

theorem composed_declaration (n : Nat) :
    Composed (declaration n) := by
  unfold declaration
  refine .bind (.consume _ _) fun name => .bind .skipWhitespace fun _ => ?_
  refine .bind (.consume _ _) fun colon => ?_
  refine .bind ((composed_values n).collect _ _ composed_declarationEnd) fun values => ?_
  split
  · exact .pure _
  · exact .fail _

theorem composed_skipStatement :
    ∀ (n : Nat) (skipped : Bool), Composed (skipStatement n skipped)
  | 0, _ => .exhausted
  | n + 1, skipped => by
      rw [skipStatement]
      refine .bind (.peek _) fun front => ?_
      split
      · exact .pure _
      · refine .bind (.peek _) fun ends => ?_
        split
        · exact .pure _
        · split
          · exact .bind .next fun _ => .pure _
          · refine .bind (composed_values n).value fun v => ?_
            dsimp only
            split
            · exact .bind (.record _) fun _ => composed_skipStatement n true
            · exact composed_skipStatement n true

/-- What the computations that read bodies are made of, at a budget. -/
structure ComposedBodies (n : Nat) : Prop where
  styleBlock : ∀ b, Composed (styleBlock n b)
  styleEntries : ∀ read, Composed (styleEntries n read)
  styleStatement : ∀ v, Composed (styleStatement n v)
  styleRule : ∀ r, Composed (styleRule n r)
  resolveAtRule : ∀ r inStyle, Composed (resolveAtRule n r inStyle)
  ruleList : ∀ read, Composed (ruleList n read)
  keyframes : ∀ read, Composed (keyframes n read)

theorem composed_bodies (n : Nat) :
    ComposedBodies n := by
  induction n with
  | zero =>
      constructor <;> intros <;> simp only [styleBlock_zero, styleEntries_zero, styleStatement_zero,
        styleRule_zero, resolveAtRule_zero, ruleList_zero, keyframes_zero] <;> exact .exhausted
  | succ n ih =>
      refine ⟨?_, ?_, ?_, ?_, ?_, ?_, ?_⟩
      · intro b
        rw [Read.styleBlock]
        exact (ih.styleEntries _).inScope.nested.within _
      · intro read
        rw [Read.styleEntries]
        refine .bind (.peek _) fun front => ?_
        split
        · exact .pure _
        · refine .bind (ih.styleStatement _) fun entry => ?_
          split
          · exact ih.styleEntries _
          · exact ih.styleEntries _
      · intro v
        cases v with
        | token t =>
            rw [Read.styleStatement]
            split
            · exact .bind .next fun _ => .pure _
            · split
              · refine .bind (composed_atRule n) fun rule => ?_
                split
                · exact .pure _
                · exact .bind (ih.resolveAtRule _ _) fun _ => .pure _
              · refine .bind (.peek _) fun isStart => ?_
                split
                · exact .bind (composed_values n).variableUse fun _ => .pure _
                · split
                  · exact .bind (composed_declaration n) fun _ => .pure _
                  · split
                    · refine .bind (composed_qualifiedRule n) fun rule => ?_
                      exact .bind (ih.styleRule _) fun _ => .pure _
                    · exact .bind (composed_skipStatement n _) fun _ => .pure _
        | _ =>
            rw [Read.styleStatement]
            · exact .bind (composed_skipStatement n _) fun _ => .pure _
            · rintro _ ⟨⟩
      · intro r
        rw [Read.styleRule]
        split
        · exact .fail _
        · exact .bind (ih.styleBlock _) fun _ => .pure _
      · intro r inStyle
        rw [Read.resolveAtRule]
        split
        · exact .pure _
        · split
          · exact .bind ((ih.keyframes _).inScope.nested.within _) fun _ => .pure _
          · exact .bind ((ih.ruleList _).inScope.nested.within _) fun _ => .pure _
          · exact .bind (ih.styleBlock _) fun _ => .pure _
      · intro read
        rw [Read.ruleList]
        refine .bind (composed_nextRule n) fun rule => ?_
        split
        · exact .pure _
        · exact .bind (ih.styleRule _) fun _ => ih.ruleList _
        · exact .bind (ih.resolveAtRule _ _) fun _ => ih.ruleList _
      · intro read
        rw [Read.keyframes]
        refine .bind (composed_nextRule n) fun rule => ?_
        split
        · exact .pure _
        · exact .bind (ih.styleBlock _) fun _ => ih.keyframes _
        · exact .bind (ih.resolveAtRule _ _) fun _ => ih.keyframes _

/-! ## Operations -/

/-- Rules are read one by one, up to their number or to the end of the input. -/
theorem rules_succ (n : Nat) {limit : Option Nat} (hlimit : limit ≠ some 0) :
    rules (n + 1) limit = do
      match ← nextRule n with
      | none => return []
      | some rule => return rule :: (← rules n (limit.map (· - 1))) := by
  funext r
  rw [rules, collectRules]
  · cases h : nextRule n r with
    | error stop s => rw [bind_error h]
    | ok found s =>
        rw [bind_ok h]
        cases found with
        | none => rfl
        | some rule =>
            dsimp only
            rcases hrest : collectRules n (limit.map (· - 1)) s with ⟨found, _ | stop, t⟩
            · have hrules : rules n (limit.map (· - 1)) s = .ok found t := by rw [rules, hrest]
              rw [bind_ok hrules]
              rfl
            · have hrules : rules n (limit.map (· - 1)) s = .error stop t := by rw [rules, hrest]
              rw [bind_error hrules]
  · exact hlimit

theorem composed_rules :
    ∀ (n : Nat) (limit : Option Nat), Composed (rules n limit)
  | 0, _ => .exhausted
  | n + 1, limit => by
      by_cases hlimit : limit = some 0
      · subst hlimit
        exact .pure []
      · rw [rules_succ n hlimit]
        refine .bind (composed_nextRule n) fun found => ?_
        split
        · exact .pure _
        · exact .bind (composed_rules n _) fun _ => .pure _

theorem composed_perform (n : Nat) (op : Operation) :
    Composed (op.perform n) := by
  have hvalues := composed_values n
  have hbodies := composed_bodies n
  cases op with
  | value => exact .bind hvalues.value fun _ => .pure _
  | block => exact .bind hvalues.block fun _ => .pure _
  | rawBlock => exact .bind .rawBlock fun _ => .pure _
  | call => exact .bind hvalues.call fun _ => .pure _
  | variableUse => exact .bind hvalues.variableUse fun _ => .pure _
  | valueList => exact .bind hvalues.valueList fun _ => .pure _
  | atRule => exact .bind (composed_atRule n) fun _ => .pure _
  | defineMixin => exact composed_defineMixin n
  | includeMixins keyword => exact composed_includeMixins n keyword
  | qualifiedRule => exact .bind (composed_qualifiedRule n) fun _ => .pure _
  | rules limit => exact .bind (composed_rules n limit) fun _ => .pure _
  | styleBlock b => exact .bind (hbodies.styleBlock b) fun _ => .pure _
  | styleRule rule => exact .bind (hbodies.styleRule rule) fun _ => .pure _
  | resolveAtRule rule inStyle => exact .bind (hbodies.resolveAtRule rule inStyle) fun _ => .pure _
  | ruleList => exact .bind (hbodies.ruleList _) fun _ => .pure _
  | keyframes => exact .bind (hbodies.keyframes _) fun _ => .pure _

end Read
end Cascade

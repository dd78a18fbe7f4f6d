import Cascade.Sheet.Body

/-!
# Balance of scopes and nesting

Reading opens and closes scopes and blocks on many paths, and a fault may stop it
on any of them.  This module shows that every computation gives back what it
took: the scopes below the innermost one are the same as before, the innermost
one has changed in its bindings only, and the number of open blocks is the same,
whether the computation ends with a result or with a stop.

**Method.**  `Balanced r s` compares the reader before with the reader after.
`Steady x` says that `x` takes every reader to a balanced one.  Steadiness is
kept by sequencing and by the four brackets `nested`, `inScope`, `capturing` and
`within`, so that it passes from the primitives to all computations by induction
on the budget.

**Results.**
* `steady_values`, `steady_mixins`, `steady_rules`, `steady_bodies`: every
  computation is steady.
* `operations_balanced`: the balance of all parsing operations, with the bound on
  the depth that was reached on the way.
-/

namespace Cascade

/-- A block or a call. -/
def Value.IsGroup (v : Value) : Prop :=
  v.shape = .block ∨ v.shape = .call

/-- The reader `s` gives back what was taken since `r`. -/
structure Balanced (r s : Reader) : Prop where
  outer : s.scopes.outer = r.scopes.outer
  parameters : s.scopes.current.parameters = r.scopes.current.parameters
  isCapture : s.scopes.current.isCapture = r.scopes.current.isCapture
  nesting : s.nesting = r.nesting
  limits : s.limits = r.limits
  deepest : s.deepest ≤ max r.deepest r.limits.nestingDepth
  passed : r.passed <:+ s.passed
  groups : (∀ g ∈ r.passed, g.IsGroup) → ∀ g ∈ s.passed, g.IsGroup

namespace Balanced

theorem refl (r : Reader) :
    Balanced r r where
  outer := rfl
  parameters := rfl
  isCapture := rfl
  nesting := rfl
  limits := rfl
  deepest := Int.le_max_left _ _
  passed := List.suffix_refl _
  groups := id

/-- Cursor and events do not count. -/
theorem ofScopes {r s : Reader} (scopes : s.scopes = r.scopes) (nesting : s.nesting = r.nesting)
    (limits : s.limits = r.limits) (deepest : s.deepest = r.deepest) (passed : s.passed = r.passed) :
    Balanced r s where
  outer := by rw [scopes]
  parameters := by rw [scopes]
  isCapture := by rw [scopes]
  nesting := nesting
  limits := limits
  deepest := deepest ▸ Int.le_max_left _ _
  passed := passed ▸ List.suffix_refl _
  groups := passed ▸ id

theorem trans {r s t : Reader} (h : Balanced r s) (k : Balanced s t) :
    Balanced r t where
  outer := k.outer.trans h.outer
  parameters := k.parameters.trans h.parameters
  isCapture := k.isCapture.trans h.isCapture
  nesting := k.nesting.trans h.nesting
  limits := k.limits.trans h.limits
  deepest := by
    have hs := h.deepest
    have ht := k.deepest
    rw [h.limits] at ht
    omega
  passed := h.passed.trans k.passed
  groups := k.groups ∘ h.groups

/-- A balanced reader has as many scopes as before. -/
theorem depth {r s : Reader} (h : Balanced r s) :
    s.scopes.depth = r.scopes.depth := by
  simp [Scopes.depth, Scopes.frames, h.outer]

end Balanced

namespace Read

variable {α β : Type}

/-- The reader that a computation leaves behind, with a result or at a stop. -/
def after (x : Read α) (r : Reader) : Reader :=
  match x r with
  | .ok _ s => s
  | .error _ s => s

theorem after_ok {x : Read α} {r s : Reader} {a : α} (h : x r = .ok a s) :
    x.after r = s := by
  simp [after, h]

theorem after_error {x : Read α} {r s : Reader} {e : Stop} (h : x r = .error e s) :
    x.after r = s := by
  simp [after, h]

theorem after_andFinally (x : Read α) (f : Reader → Reader) (r : Reader) :
    (andFinally x f).after r = f (x.after r) := by
  cases h : x r with
  | ok a s => rw [after_ok h, after_ok (andFinally_ok h)]
  | error e s => rw [after_error h, after_error (andFinally_error h)]

theorem after_congr {x y : Read α} {r s : Reader} (h : x r = y s) :
    x.after r = y.after s := by
  simp [after, h]

theorem after_bind_ok {x : Read α} {f : α → Read β} {r s : Reader} {a : α} (h : x r = .ok a s) :
    (x >>= f).after r = (f a).after s := by
  simp [after, bind_ok h]

/-- The computation gives back what it takes. -/
def Steady (x : Read α) : Prop :=
  ∀ r, Balanced r (x.after r)

/-! ## Sequencing and primitives -/

theorem Steady.pure (a : α) :
    Steady (Pure.pure a : Read α) :=
  fun r => .refl r

theorem Steady.bind {x : Read α} {f : α → Read β} (hx : Steady x) (hf : ∀ a, Steady (f a)) :
    Steady (x >>= f) := by
  intro r
  have hr := hx r
  cases h : x r with
  | ok a s =>
      rw [after_ok h] at hr
      rw [after_bind_ok h]
      exact hr.trans (hf a s)
  | error e s =>
      rw [after_error h] at hr
      rw [after_error (bind_error h)]
      exact hr

theorem steady_peek (f : Cursor → α) :
    Steady (peek f) :=
  fun r => .refl r

theorem steady_look (f : Reader → α) :
    Steady (look f) :=
  fun r => .refl r

theorem steady_fail (d : Diagnostic) :
    Steady (fail d : Read α) :=
  fun r => .refl r

theorem steady_failAt (n : Nat) (cause : Cause) :
    Steady (failAt n cause : Read α) :=
  fun r => .refl r

theorem steady_exhausted :
    Steady (exhausted : Read α) :=
  fun r => .refl r

theorem steady_scan (x : Scan α) :
    Steady (scan x) := by
  intro r
  unfold after scan
  cases x r.cursor with
  | ok a c => exact .ofScopes rfl rfl rfl rfl rfl
  | error d c => exact .ofScopes rfl rfl rfl rfl rfl

theorem steady_next :
    Steady next :=
  steady_scan _

theorem steady_skipWhitespace :
    Steady skipWhitespace :=
  steady_scan _

theorem steady_splice (vs : List Value) :
    Steady (splice vs) :=
  fun _ => .ofScopes rfl rfl rfl rfl rfl

theorem steady_spliceExpansion (mixin : String) (vs : List Value) :
    Steady (spliceExpansion mixin vs) :=
  fun _ => .ofScopes rfl rfl rfl rfl rfl

theorem steady_record (e : Event) :
    Steady (record e) :=
  fun _ => .ofScopes rfl rfl rfl rfl rfl

theorem steady_remember {group : Value} (hgroup : group.IsGroup) :
    Steady (remember group) := by
  intro r
  refine { Balanced.refl r with passed := List.suffix_cons _ _, groups := ?_ }
  intro hr g hg
  rcases List.mem_cons.mp hg with rfl | hg
  · exact hgroup
  · exact hr g hg

theorem steady_setVariable (name : String) (values : List Value) :
    Steady (updateScopes (·.setVariable name values)) :=
  fun r => { Balanced.refl r with }

theorem steady_setAlias (name : String) (values : List Value) :
    Steady (updateScopes (·.setAlias name values)) :=
  fun r => { Balanced.refl r with }

theorem steady_setMixin (name : String) (mixin : Mixin) :
    Steady (updateScopes (·.setMixin name mixin)) :=
  fun r => { Balanced.refl r with }

/-! ## Brackets -/

/-- One more block is open inside; at the limit nothing runs inside. -/
theorem Steady.nested {x : Read α} (hx : Steady x) :
    Steady (nested x) := by
  intro r
  by_cases hroom : r.nesting < r.limits.nestingDepth
  · have hin := hx { r with nesting := r.nesting + 1, deepest := max r.deepest (r.nesting + 1) }
    have hdeep := hin.deepest
    have hnest := hin.nesting
    simp only at hdeep hnest
    rw [after_congr (nested_of_lt hroom), after_andFinally]
    refine { hin with nesting := ?_, deepest := ?_ }
    · simp only
      omega
    · simp only
      omega
  · rw [after_error (nested_of_le (Int.not_lt.mp hroom))]
    exact .refl r

/-- A computation in a scope of its own; only its new scope has changed when it is left. -/
theorem Steady.inNewScope {x : Read α} {f : Scopes → Scopes} {frame : Scope}
    (hf : ∀ s, f s = ⟨frame, s.frames⟩) (hx : Steady x) :
    Steady (do updateScopes f; andFinally x fun r => { r with scopes := r.scopes.exit }) := by
  intro r
  rw [after_bind_ok (show updateScopes f r = .ok () { r with scopes := f r.scopes } from rfl),
    after_andFinally]
  have hin := hx { r with scopes := f r.scopes }
  have houter : (x.after { r with scopes := f r.scopes }).scopes.outer = r.scopes.frames := by
    rw [hin.outer]
    simp [hf]
  have hexit : (x.after { r with scopes := f r.scopes }).scopes.exit = r.scopes := by
    simp [Scopes.exit, Scopes.exit?, houter, Scopes.frames]
  refine { hin with outer := ?_, parameters := ?_, isCapture := ?_ }
  · simp [hexit]
  · simp [hexit]
  · simp [hexit]

theorem Steady.inScope {x : Read α} (hx : Steady x) :
    Steady (inScope x) :=
  hx.inNewScope fun _ => rfl

theorem Steady.capturing {x : Read α} (parameters : List String) (hx : Steady x) :
    Steady (capturing parameters x) :=
  hx.inNewScope fun _ => rfl

theorem Steady.within {x : Read α} (vs : List Value) (hx : Steady x) :
    Steady (within vs x) := by
  intro r
  have hin := hx { r with cursor := .ofValues vs r.cursor.depth }
  rw [after_congr (within_run vs), after_andFinally]
  exact { hin with }

/-! ## Values -/

theorem steady_resolve (ref : Reference) :
    Steady (resolve ref) := by
  unfold resolve
  refine .bind (steady_look _) fun scopes => ?_
  split
  · exact .pure _
  · split
    · exact .bind (steady_splice _) fun _ => .pure _
    · split
      · exact .pure _
      · exact steady_fail _

theorem steady_skipInline :
    ∀ n : Nat, Steady (skipInline n)
  | 0 => .pure _
  | n + 1 => by
      rw [skipInline]
      refine .bind (steady_peek _) fun front => ?_
      split
      · split
        · exact .bind steady_next fun _ => steady_skipInline n
        · exact .pure _
      · exact .pure _

theorem steady_blockEnd (opener : Token) (closer : TokenType) (read : List Value) :
    Steady (blockEnd opener closer read) := by
  unfold blockEnd
  refine .bind (steady_peek _) fun front => ?_
  split
  · exact .pure _
  · split
    · exact .bind steady_next fun _ => .pure _
    · exact .pure _

theorem steady_definitionEnd (read : List Value) :
    Steady (definitionEnd read) := by
  unfold definitionEnd
  refine .bind (steady_peek _) fun front => ?_
  split
  · exact .pure _
  · split
    · exact .bind steady_next fun _ => .pure _
    · exact .pure _
  · exact .pure _

/-- The computations that read values are steady at a budget. -/
structure SteadyValues (n : Nat) : Prop where
  value : Steady (value n)
  collect : ∀ {β : Type} (ending : List Value → Read (Option β)) (read : List Value),
    (∀ read, Steady (ending read)) → Steady (collect n ending read)
  block : Steady (block n)
  call : Steady (call n)
  arguments : ∀ name state, Steady (arguments n name state)
  variableUse : Steady (variableUse n)
  valueList : Steady (valueList n)

theorem steady_values (n : Nat) :
    SteadyValues n := by
  induction n with
  | zero =>
      constructor <;> intros <;> simp only [value_zero, collect_zero, block_zero, call_zero,
        arguments_zero, variableUse_zero, valueList_zero] <;> exact steady_exhausted
  | succ n ih =>
      refine ⟨?_, ?_, ?_, ?_, ?_, ?_, ?_⟩
      · rw [Read.value]
        refine .bind (steady_peek _) fun front => ?_
        split
        · exact .bind steady_next fun _ => .bind (steady_resolve _) fun _ => .pure _
        · split
          · exact .bind ih.block fun _ => .pure _
          · split
            · exact .bind ih.call fun _ => .pure _
            · refine .bind (steady_peek _) fun isStart => ?_
              split
              · exact .bind ih.variableUse fun _ => .pure _
              · exact steady_next
        · next group href htoken =>
            have hgroup : group.IsGroup := by
              cases group with
              | token t => exact (htoken t rfl).elim
              | reference dollar name => exact (href dollar name rfl).elim
              | block => exact .inl rfl
              | call => exact .inr rfl
            exact .bind (steady_remember hgroup) fun _ => steady_next
        · exact steady_next
      · intro β ending read hending
        rw [Read.collect]
        refine .bind (hending read) fun result => ?_
        split
        · exact .pure _
        · refine .bind ih.value fun v => ?_
          split
          · exact ih.collect _ _ hending
          · exact ih.collect _ _ hending
      · rw [Read.block]
        refine .bind (steady_scan _) fun bracket => ?_
        exact (ih.collect _ _ (steady_blockEnd _ _)).inScope.nested
      · rw [Read.call]
        exact .bind (steady_scan _) fun name => (ih.arguments name _).nested
      · intro name state
        rw [Read.arguments]
        refine .bind (steady_peek _) fun front => ?_
        split
        · exact .pure _
        · split
          · exact .bind steady_next fun _ => .pure _
          · split
            · exact .bind steady_next fun _ => ih.arguments _ _
            · refine .bind ih.value fun v => ?_
              split
              · exact ih.arguments _ _
              · exact ih.arguments _ _
      · rw [Read.variableUse]
        refine .bind (steady_scan _) fun dollar => .bind (steady_scan _) fun name => ?_
        refine .bind (steady_peek _) fun offset => .bind (steady_peek _) fun operator => ?_
        split
        · split
          · refine .bind steady_skipWhitespace fun _ => .bind steady_next fun _ => ?_
            refine .bind ih.valueList fun values => .bind (steady_setVariable _ _) fun _ => ?_
            exact .bind (steady_look _) fun depth => .bind (steady_record _) fun _ => .pure _
          · exact steady_resolve _
        · exact steady_resolve _
      · rw [Read.valueList]
        refine .bind (steady_peek _) fun length => .bind (steady_skipInline _) fun _ => ?_
        exact ih.collect _ _ steady_definitionEnd

/-! ## Mixins -/

theorem steady_fallbackEnd (read : List Value) :
    Steady (fallbackEnd read) := by
  unfold fallbackEnd
  refine .bind (steady_peek _) fun front => ?_
  split
  · exact .pure _
  · split
    · exact .pure _
    · exact .pure _

theorem steady_parameters (mixin : Token) :
    ∀ (n : Nat) (seenDefault : Bool) (read : List Parameter),
      Steady (parameters mixin n seenDefault read)
  | 0, _, _ => steady_exhausted
  | n + 1, seenDefault, read => by
      rw [parameters]
      refine .bind steady_skipWhitespace fun _ => .bind (steady_peek _) fun atEnd => ?_
      split
      · exact steady_failAt _ _
      · refine .bind (steady_peek _) fun closes => ?_
        split
        · exact .bind steady_next fun _ => .pure _
        · refine .bind (steady_scan _) fun _ => .bind (steady_scan _) fun name => ?_
          refine .bind steady_skipWhitespace fun _ => .bind (steady_peek _) fun hasDefault => ?_
          have hrest (fallback : Option (List Value)) : Steady (do
              skipWhitespace
              if ← peek (·.check 0 .comma) then
                let _ ← next
                parameters mixin n (seenDefault || hasDefault) (⟨name.text, name, fallback⟩ :: read)
              else if ← peek (·.check 0 .closeParen) then
                parameters mixin n (seenDefault || hasDefault) (⟨name.text, name, fallback⟩ :: read)
              else
                failAt 0 .parameterSeparator) := by
            refine .bind steady_skipWhitespace fun _ => .bind (steady_peek _) fun comma => ?_
            split
            · exact .bind steady_next fun _ => steady_parameters mixin n _ _
            · refine .bind (steady_peek _) fun closes => ?_
              split
              · exact steady_parameters mixin n _ _
              · exact steady_failAt _ _
          dsimp only
          split
          · refine .bind steady_next fun _ => ?_
            exact .bind ((steady_values n).collect _ _ steady_fallbackEnd) fun _ =>
              .bind (.pure _) hrest
          · split
            · exact .bind (steady_fail _) hrest
            · exact .bind (.pure _) hrest

theorem steady_mixinHead (n : Nat) :
    Steady (mixinHead n) := by
  unfold mixinHead
  refine .bind (steady_peek _) fun front => ?_
  split
  · split
    · exact .bind steady_next fun _ => .pure _
    · split
      · exact .bind steady_next fun _ => .bind (steady_parameters _ n _ _) fun _ => .pure _
      · exact steady_failAt _ _
  · exact steady_failAt _ _

theorem steady_defineMixin (n : Nat) :
    Steady (defineMixin n) := by
  unfold defineMixin
  refine .bind steady_skipWhitespace fun _ => .bind (steady_mixinHead n) fun head => ?_
  refine .bind steady_skipWhitespace fun _ => .bind (steady_peek _) fun front => ?_
  have hset (body : List Value) (k : Nat) : Steady (do
      updateScopes (·.setMixin head.1.text ⟨head.2, body⟩)
      record (.mixinDefined head.1.text k head.1.position.line)) :=
    .bind (steady_setMixin _ _) fun _ => steady_record _
  dsimp only
  split
  · split
    · refine .bind ((steady_values n).block.capturing _) fun b => ?_
      exact .bind (.pure _) fun body => hset body _
    · exact .bind (steady_failAt _ _) fun body => hset body _
  · split
    · exact .bind steady_next fun _ => .bind (.pure _) fun body => hset body _
    · exact .bind (steady_failAt _ _) fun body => hset body _
  · exact .bind (steady_failAt _ _) fun body => hset body _

theorem steady_instantiate (name : Token) (args : List (List Value)) :
    Steady (instantiate name args) := by
  unfold instantiate
  refine .bind (steady_look _) fun scopes => ?_
  split
  · exact steady_fail _
  · split
    · exact .pure _
    · exact steady_fail _

theorem steady_targets :
    ∀ (n : Nat) (read : List (String × List Value)), Steady (targets n read)
  | 0, _ => steady_exhausted
  | n + 1, read => by
      rw [targets]
      refine .bind steady_skipWhitespace fun _ => .bind (steady_peek _) fun front => ?_
      split
      · exact .pure _
      · split
        · exact .bind steady_next fun _ => .pure _
        · split
          · exact .bind steady_next fun _ => steady_targets n _
          · split
            · refine .bind steady_next fun _ => ?_
              exact .bind (steady_instantiate _ _) fun _ => steady_targets n _
            · split
              · refine .bind (steady_values n).call fun c => ?_
                exact .bind (steady_instantiate _ _) fun _ => steady_targets n _
              · exact steady_failAt _ _
      · refine .bind steady_next fun _ => ?_
        exact .bind (steady_instantiate _ _) fun _ => steady_targets n _
      · exact steady_failAt _ _

theorem steady_expand :
    ∀ instances : List (String × List Value), Steady (expand instances)
  | [] => .pure _
  | (name, body) :: rest => by
      rw [expand]
      refine .bind (steady_spliceExpansion _ _) fun _ => .bind (steady_peek _) fun depth => ?_
      exact .bind (steady_record _) fun _ => steady_expand rest

theorem steady_includeMixins (n : Nat) (keyword : Token) :
    Steady (includeMixins n keyword) := by
  unfold includeMixins
  refine .bind (steady_targets n _) fun reversed => ?_
  split
  · exact steady_fail _
  · refine .bind (steady_look _) fun limit => .bind (steady_peek _) fun depth => ?_
    split
    · exact steady_fail _
    · exact steady_expand _

/-! ## Rules -/

theorem steady_rawBlock :
    Steady (scan Scan.rawBlock) :=
  steady_scan _

theorem steady_expandAlias (name : Token) (values : List Value) :
    Steady (expandAlias name values) := by
  unfold expandAlias
  exact .bind (steady_splice _) fun _ => steady_record _

theorem steady_atRuleEnd (name : Token) (read : List Value) :
    Steady (atRuleEnd name read) := by
  unfold atRuleEnd
  refine .bind (steady_peek _) fun front => ?_
  split
  · exact .pure _
  · split
    · exact .bind steady_next fun _ => .pure _
    · split
      · exact .bind steady_rawBlock fun _ => .pure _
      · exact .pure _
  · split
    · exact .bind steady_next fun _ => .pure _
    · exact .pure _
  · exact .pure _

theorem steady_aliasOrRule (n : Nat) (name : Token) :
    Steady (aliasOrRule n name) := by
  have hrule : Steady (do return some (← collect n (atRuleEnd name) []) : Read (Option AtRule)) :=
    .bind ((steady_values n).collect _ _ (steady_atRuleEnd name)) fun _ => .pure _
  unfold aliasOrRule
  split
  · refine .bind (steady_peek _) fun offset => .bind (steady_peek _) fun defines => ?_
    split
    · refine .bind steady_skipWhitespace fun _ => .bind steady_next fun _ => ?_
      refine .bind (steady_values n).valueList fun values => .bind (steady_setAlias _ _) fun _ => ?_
      exact .bind (steady_record _) fun _ => .pure _
    · refine .bind (steady_look _) fun scopes => ?_
      split
      · exact .bind (steady_expandAlias _ _) fun _ => .pure _
      · exact hrule
  · exact hrule

theorem steady_atRule (n : Nat) :
    Steady (atRule n) := by
  unfold atRule
  refine .bind (steady_scan _) fun name => ?_
  dsimp only
  split
  · exact .bind (steady_defineMixin n) fun _ => .pure _
  · split
    · exact .bind (steady_includeMixins n name) fun _ => .pure _
    · exact steady_aliasOrRule n name

theorem steady_qualifiedEnd (read : List Value) :
    Steady (qualifiedEnd read) := by
  unfold qualifiedEnd
  refine .bind (steady_peek _) fun front => ?_
  split
  · exact steady_failAt _ _
  · split
    · exact .bind steady_rawBlock fun _ => .pure _
    · exact .pure _
  · split
    · exact .bind steady_next fun _ => .pure _
    · exact .pure _
  · exact .pure _

theorem steady_qualifiedRule (n : Nat) :
    Steady (qualifiedRule n) :=
  (steady_values n).collect _ _ steady_qualifiedEnd

theorem steady_nextRule :
    ∀ n : Nat, Steady (nextRule n)
  | 0 => steady_exhausted
  | n + 1 => by
      have hqualified : Steady (do return some (.qualified (← qualifiedRule n)) : Read (Option Rule)) :=
        .bind (steady_qualifiedRule n) fun _ => .pure _
      rw [nextRule]
      refine .bind steady_skipWhitespace fun _ => .bind (steady_peek _) fun front => ?_
      split
      · exact .pure _
      · split
        · split
          · exact .bind steady_next fun _ => steady_nextRule n
          · split
            · refine .bind (steady_atRule n) fun rule => ?_
              split
              · exact .pure _
              · exact steady_nextRule n
            · refine .bind (steady_peek _) fun isStart => ?_
              split
              · exact .bind (steady_values n).variableUse fun _ => steady_nextRule n
              · exact hqualified
        · exact hqualified

/-! ## Bodies -/

theorem steady_declarationEnd (read : List Value) :
    Steady (declarationEnd read) := by
  unfold declarationEnd
  refine .bind (steady_peek _) fun front => ?_
  split
  · exact .pure _
  · refine .bind (steady_peek _) fun ends => ?_
    split
    · exact .pure _
    · split
      · exact .bind steady_next fun _ => .pure _
      · exact .pure _

theorem steady_declaration (n : Nat) :
    Steady (declaration n) := by
  unfold declaration
  refine .bind (steady_scan _) fun name => .bind steady_skipWhitespace fun _ => ?_
  refine .bind (steady_scan _) fun colon => ?_
  refine .bind ((steady_values n).collect _ _ steady_declarationEnd) fun values => ?_
  split
  · exact .pure _
  · exact steady_fail _

theorem steady_skipStatement :
    ∀ (n : Nat) (skipped : Bool), Steady (skipStatement n skipped)
  | 0, _ => steady_exhausted
  | n + 1, skipped => by
      rw [skipStatement]
      refine .bind (steady_peek _) fun front => ?_
      split
      · exact .pure _
      · refine .bind (steady_peek _) fun ends => ?_
        split
        · exact .pure _
        · split
          · exact .bind steady_next fun _ => .pure _
          · refine .bind (steady_values n).value fun v => ?_
            dsimp only
            split
            · exact .bind (steady_record _) fun _ => steady_skipStatement n true
            · exact steady_skipStatement n true

/-- The computations that read bodies are steady at a budget. -/
structure SteadyBodies (n : Nat) : Prop where
  styleBlock : ∀ b, Steady (styleBlock n b)
  styleEntries : ∀ read, Steady (styleEntries n read)
  styleStatement : ∀ v, Steady (styleStatement n v)
  styleRule : ∀ r, Steady (styleRule n r)
  resolveAtRule : ∀ r inStyle, Steady (resolveAtRule n r inStyle)
  ruleList : ∀ read, Steady (ruleList n read)
  keyframes : ∀ read, Steady (keyframes n read)

theorem steady_bodies (n : Nat) :
    SteadyBodies n := by
  induction n with
  | zero =>
      constructor <;> intros <;> simp only [styleBlock_zero, styleEntries_zero, styleStatement_zero,
        styleRule_zero, resolveAtRule_zero, ruleList_zero, keyframes_zero] <;> exact steady_exhausted
  | succ n ih =>
      refine ⟨?_, ?_, ?_, ?_, ?_, ?_, ?_⟩
      · intro b
        rw [Read.styleBlock]
        exact (ih.styleEntries _).inScope.nested.within _
      · intro read
        rw [Read.styleEntries]
        refine .bind (steady_peek _) fun front => ?_
        split
        · exact .pure _
        · refine .bind (ih.styleStatement _) fun entry => ?_
          split
          · exact ih.styleEntries _
          · exact ih.styleEntries _
      · intro v
        cases v with
        | token t =>
            rw [Read.styleStatement]
            split
            · exact .bind steady_next fun _ => .pure _
            · split
              · refine .bind (steady_atRule n) fun rule => ?_
                split
                · exact .pure _
                · exact .bind (ih.resolveAtRule _ _) fun _ => .pure _
              · refine .bind (steady_peek _) fun isStart => ?_
                split
                · exact .bind (steady_values n).variableUse fun _ => .pure _
                · split
                  · exact .bind (steady_declaration n) fun _ => .pure _
                  · split
                    · refine .bind (steady_qualifiedRule n) fun rule => ?_
                      exact .bind (ih.styleRule _) fun _ => .pure _
                    · exact .bind (steady_skipStatement n _) fun _ => .pure _
        | _ =>
            rw [Read.styleStatement]
            · exact .bind (steady_skipStatement n _) fun _ => .pure _
            · rintro _ ⟨⟩
      · intro r
        rw [Read.styleRule]
        split
        · exact steady_fail _
        · exact .bind (ih.styleBlock _) fun _ => .pure _
      · intro r inStyle
        rw [Read.resolveAtRule]
        split
        · exact .pure _
        · split
          · exact .bind ((ih.keyframes _).inScope.nested.within _) fun _ => .pure _
          · exact .bind ((ih.ruleList _).inScope.nested.within _) fun _ => .pure _
          · exact .bind (ih.styleBlock _) fun _ => .pure _
      · intro read
        rw [Read.ruleList]
        refine .bind (steady_nextRule n) fun rule => ?_
        split
        · exact .pure _
        · exact .bind (ih.styleRule _) fun _ => ih.ruleList _
        · exact .bind (ih.resolveAtRule _ _) fun _ => ih.ruleList _
      · intro read
        rw [Read.keyframes]
        refine .bind (steady_nextRule n) fun rule => ?_
        split
        · exact .pure _
        · exact .bind (ih.styleBlock _) fun _ => ih.keyframes _
        · exact .bind (ih.resolveAtRule _ _) fun _ => ih.keyframes _

/-! ## Operations -/

theorem balanced_collectRules :
    ∀ (n : Nat) (limit : Option Nat) (r : Reader), Balanced r (collectRules n limit r).2.2
  | 0, limit, r => .refl r
  | n + 1, limit, r => by
      by_cases hnone : limit = some 0
      · subst hnone
        exact .refl r
      · have hrule := steady_nextRule n r
        rw [collectRules]
        · cases h : nextRule n r with
          | error stop s => exact after_error h ▸ hrule
          | ok rule s =>
              rw [after_ok h] at hrule
              cases rule with
              | none => exact hrule
              | some rule => exact hrule.trans (balanced_collectRules n _ s)
        · exact hnone

theorem steady_rules (n : Nat) (limit : Option Nat) :
    Steady (rules n limit) := by
  intro r
  have hr := balanced_collectRules n limit r
  rcases h : collectRules n limit r with ⟨found, _ | stop, s⟩
  · rw [h] at hr
    rw [after_ok (show rules n limit r = .ok found s by simp [rules, h])]
    exact hr
  · rw [h] at hr
    rw [after_error (show rules n limit r = .error stop s by simp [rules, h])]
    exact hr

/-- The parsing operations, with what each of them is given. -/
inductive Operation where
  | value
  | block
  | rawBlock
  | call
  | variableUse
  | valueList
  | atRule
  | defineMixin
  | includeMixins (keyword : Token)
  | qualifiedRule
  | rules (limit : Option Nat)
  | styleBlock (block : Block)
  | styleRule (rule : QualifiedRule)
  | resolveAtRule (rule : AtRule) (inStyle : Bool)
  | ruleList
  | keyframes

/-- An operation at a budget; what it reads does not matter here. -/
def Operation.perform (n : Nat) : Operation → Read Unit
  | .value => do let _ ← Read.value n
  | .block => do let _ ← Read.block n
  | .rawBlock => do let _ ← scan Scan.rawBlock
  | .call => do let _ ← Read.call n
  | .variableUse => do let _ ← Read.variableUse n
  | .valueList => do let _ ← Read.valueList n
  | .atRule => do let _ ← Read.atRule n
  | .defineMixin => Read.defineMixin n
  | .includeMixins keyword => Read.includeMixins n keyword
  | .qualifiedRule => do let _ ← Read.qualifiedRule n
  | .rules limit => do let _ ← Read.rules n limit
  | .styleBlock b => do let _ ← Read.styleBlock n b
  | .styleRule rule => do let _ ← Read.styleRule n rule
  | .resolveAtRule rule inStyle => do let _ ← Read.resolveAtRule n rule inStyle
  | .ruleList => do let _ ← Read.ruleList n []
  | .keyframes => do let _ ← Read.keyframes n []

theorem steady_perform (n : Nat) (op : Operation) :
    Steady (op.perform n) := by
  have hvalues := steady_values n
  have hbodies := steady_bodies n
  cases op with
  | value => exact .bind hvalues.value fun _ => .pure _
  | block => exact .bind hvalues.block fun _ => .pure _
  | rawBlock => exact .bind steady_rawBlock fun _ => .pure _
  | call => exact .bind hvalues.call fun _ => .pure _
  | variableUse => exact .bind hvalues.variableUse fun _ => .pure _
  | valueList => exact .bind hvalues.valueList fun _ => .pure _
  | atRule => exact .bind (steady_atRule n) fun _ => .pure _
  | defineMixin => exact steady_defineMixin n
  | includeMixins keyword => exact steady_includeMixins n keyword
  | qualifiedRule => exact .bind (steady_qualifiedRule n) fun _ => .pure _
  | rules limit => exact .bind (steady_rules n limit) fun _ => .pure _
  | styleBlock b => exact .bind (hbodies.styleBlock b) fun _ => .pure _
  | styleRule rule => exact .bind (hbodies.styleRule rule) fun _ => .pure _
  | resolveAtRule rule inStyle => exact .bind (hbodies.resolveAtRule rule inStyle) fun _ => .pure _
  | ruleList => exact .bind (hbodies.ruleList _) fun _ => .pure _
  | keyframes => exact .bind (hbodies.keyframes _) fun _ => .pure _

/-- Scopes and nesting are balanced: an operation leaves, by a result or by a stop, as many scopes as
it found, those below the innermost one as they were and the innermost one with its parameters and
its capture mark; the number of open blocks is the old one, and on the way it was never above the
limit. -/
theorem operations_balanced (op : Operation) (n : Nat) (r : Reader) :
    ((op.perform n).after r).scopes.depth = r.scopes.depth ∧
    ((op.perform n).after r).scopes.outer = r.scopes.outer ∧
    ((op.perform n).after r).scopes.current.parameters = r.scopes.current.parameters ∧
    ((op.perform n).after r).scopes.current.isCapture = r.scopes.current.isCapture ∧
    ((op.perform n).after r).nesting = r.nesting ∧
    ((op.perform n).after r).deepest ≤ max r.deepest r.limits.nestingDepth := by
  have h := steady_perform n op r
  exact ⟨h.depth, h.outer, h.parameters, h.isCapture, h.nesting, h.deepest⟩

end Read
end Cascade

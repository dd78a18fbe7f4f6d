import Mathlib
import Cascade.Proofs.Coverage
import Cascade.Proofs.SoundReading
import Cascade.Sheet.Parser

/-!
# The faults of a stylesheet

Which faults reading a stylesheet can end with, and where they are found.  A fault
is found at the place of a token of the source, the end token included, but for two
cases that have no place at all: a rule without a prelude has no selector to report,
and an empty block has no value to report when it is nested too deeply.

**Method.**  The triple of `Proofs.SoundReading` is carried through the bodies of
rules.  A body is read from a cursor of its own, which has a place only if there is
something in it; where there is nothing, nothing but the limit of nested blocks can
be at fault (`Idle`).  The same pass gives the shape of the tree (`Entry.Shaped`).

**Results.**
* `careful_bodies`: bodies are read without a fault that is not genuine.
* `Sheet.sound_of_fault`: a fault of a whole stylesheet is genuine, and placed unless it has no place.
* `Sheet.fault_position_iff`: a fault has the place of a token unless it has none.
* `Sheet.faults_are_genuine`: the kinds of fault.
-/

namespace Cascade

/-! ## The shape of a tree -/

/-- The entry is one that a body of its kind can hold: keyframes stand in the bodies of keyframes
rules only, declarations and style rules in all others, and all selectors have `S`. -/
inductive Entry.Shaped (S : ComplexSelector → Prop) : Bool → Entry → Prop
  | declaration (d : Declaration) : Shaped S false (.declaration d)
  | style {prelude : List Value} {selectors : SelectorList} {body : List Entry} :
      (∀ s ∈ selectors, S s) → (∀ e ∈ body, Shaped S false e) →
      Shaped S false (.style prelude selectors body)
  | statement {inKeyframes : Bool} (name : Token) (prelude : List Value) :
      Shaped S inKeyframes (.statement name prelude)
  | group {inKeyframes : Bool} {name : Token} {prelude : List Value} {opener : Token}
      {body : List Entry} {closer : Option Token} :
      (∀ e ∈ body, Shaped S (BodyKind.ofName name.text == .keyframes) e) →
      Shaped S inKeyframes (.group name prelude opener body closer)
  | keyframe {prelude : List Value} {opener : Token} {body : List Entry} {closer : Option Token} :
      (∀ e ∈ body, Shaped S false e) → Shaped S true (.keyframe prelude opener body closer)

/-- The entry is a declaration. -/
def Entry.isDeclaration : Entry → Bool
  | .declaration _ => true
  | _ => false

namespace Read

variable {α : Type} {P : Token → Prop}

/-- With nothing to read, the computation gives a result with `R` and leaves the scopes alone,
unless no step is left. -/
def Idle (x : Read α) (R : α → Prop) : Prop :=
  ∀ r, r.cursor.items = [] →
    (∃ a s, x r = .ok a s ∧ s.scopes = r.scopes ∧ R a) ∨ ∃ s, x r = .error .exhausted s

theorem Idle.inScope {x : Read α} {R : α → Prop} (h : Idle x R) :
    Idle (inScope x) R := by
  intro r hitems
  rw [inScope_run]
  rcases h { r with scopes := r.scopes.enter } hitems with ⟨a, s, hok, hscopes, ha⟩ | ⟨s, hstop⟩
  · refine .inl ⟨a, _, andFinally_ok hok, ?_, ha⟩
    dsimp only
    rw [hscopes]
    rfl
  · exact .inr ⟨_, andFinally_error hstop⟩

/-- A body with nothing in it can be at fault only for its depth, and then at no place. -/
theorem Idle.within_nil {x : Read α} {R : α → Prop} (h : Idle x R) :
    Careful P (within [] (nested x)) R := by
  intro r hr
  rw [within_run]
  by_cases hroom : r.nesting < r.limits.nestingDepth
  · have hnested := nested_of_lt (x := x) (r := { r with cursor := .ofValues [] r.cursor.depth }) hroom
    rcases h { r with
        cursor := .ofValues [] r.cursor.depth
        nesting := r.nesting + 1
        deepest := max r.deepest (r.nesting + 1) } rfl with ⟨a, s, hok, hscopes, ha⟩ | ⟨s, hstop⟩
    · rw [andFinally_ok hok] at hnested
      rw [andFinally_ok hnested]
      exact ⟨⟨hr.cursor, hscopes ▸ hr.scopes⟩, ha⟩
    · rw [andFinally_error hstop] at hnested
      rw [andFinally_error hnested]
      trivial
  · have hnested := nested_of_le (x := x) (r := { r with cursor := .ofValues [] r.cursor.depth })
      (Int.not_lt.mp hroom)
    rw [andFinally_error hnested]
    exact ⟨rfl, .inr ⟨rfl, rfl, .inr ⟨_, rfl⟩⟩⟩

/-- The body of a rule is read from a cursor of its own, one block deeper. -/
theorem careful_body {x : Read α} {R : α → Prop} {vs : List Value} (hvs : ∀ v ∈ vs, v.AllTokens P)
    (hx : Careful P x R) (hidle : Idle x R) :
    Careful P (within vs (nested (inScope x))) R := by
  by_cases hne : vs = []
  · subst hne
    exact hidle.inScope.within_nil
  · intro r hr
    rw [within_run]
    refine andFinally_safe (hx.inScope.nested _ ⟨?_, hr.scopes⟩) fun s hs => ⟨hr.cursor, hs.scopes⟩
    exact Cursor.sound_ofValues _ hne fun v hv => (hvs v hv).sound

/-! ## Declarations and skipped values -/

theorem careful_declarationEnd :
    EndsCareful P declarationEnd (AllSound P) := by
  intro read hread
  unfold declarationEnd
  refine .bind (careful_peek _) fun front _ => ?_
  split
  · exact .some hread.reverse
  · refine .bind (careful_peek _) fun ends _ => ?_
    split
    · exact .some hread.reverse
    · split
      · exact .bind careful_next fun _ _ => .some hread.reverse
      · exact .none

/-- No bracket is left open in the values of a declaration, and so the search for the mark of an
important one finds no closer that is the wrong one. -/
theorem careful_declaration (n : Nat) :
    Careful P (declaration n) fun d => AllSound P d.value := by
  unfold declaration
  refine .bind (careful_scan (Scan.careful_consume _ _)) fun name _ => ?_
  refine .bind careful_skipWhitespace fun _ _ => ?_
  refine .bind (careful_scan (Scan.careful_consume _ _)) fun colon _ => ?_
  refine .bind ((carefulValues n).collect careful_declarationEnd [] (List.forall_mem_nil _)) fun values hvalues => ?_
  have hwhole : ∀ v ∈ trimWhitespace values, v.IsWhole :=
    fun v hv => (hvalues v (mem_of_mem_trimWhitespace hv)).whole rfl
  obtain ⟨⟨value, important⟩, hsplit⟩ := exists_splitImportant hwhole
  rw [hsplit]
  exact .pure fun v hv => hvalues v (mem_of_mem_trimWhitespace (mem_of_splitImportant hsplit hv))

theorem careful_skipStatement :
    ∀ (n : Nat) (skipped : Bool), Careful P (skipStatement n skipped) fun _ => True
  | 0, _ => careful_exhausted
  | n + 1, skipped => by
      rw [skipStatement]
      refine .bind (careful_peek _) fun front _ => ?_
      split
      · exact .pure trivial
      · refine .bind (careful_peek _) fun ends _ => ?_
        split
        · exact .pure trivial
        · split
          · exact .bind careful_next fun _ _ => .pure trivial
          · refine .bind (carefulValues n).value fun v _ => ?_
            dsimp only
            split
            · exact .bind (careful_record _) fun _ _ => careful_skipStatement n true
            · exact careful_skipStatement n true

/-! ## Bodies -/

/-- All entries have the shape of those in a body of a kind. -/
abbrev AllShaped (P : Token → Prop) (inKeyframes : Bool) (es : List Entry) : Prop :=
  ∀ e ∈ es, e.Shaped (ComplexSelector.Solid P) inKeyframes

theorem AllShaped.cons {inKeyframes : Bool} {e : Entry} {es : List Entry}
    (he : e.Shaped (ComplexSelector.Solid P) inKeyframes) (hes : AllShaped P inKeyframes es) :
    AllShaped P inKeyframes (e :: es) :=
  List.forall_mem_cons.mpr ⟨he, hes⟩

theorem AllShaped.reverse {inKeyframes : Bool} {es : List Entry} (h : AllShaped P inKeyframes es) :
    AllShaped P inKeyframes es.reverse :=
  fun e he => h e (List.mem_reverse.mp he)

/-- A rule of a rule list: a shaped entry, and no declaration. -/
structure ShapedRule (P : Token → Prop) (inKeyframes : Bool) (e : Entry) : Prop where
  shaped : e.Shaped (ComplexSelector.Solid P) inKeyframes
  isRule : e.isDeclaration = false

/-- The computations that read bodies are careful at a budget. -/
structure CarefulBodies (P : Token → Prop) (n : Nat) : Prop where
  styleBlock : ∀ b, (∀ v ∈ b.contents, v.AllTokens P) →
    Careful P (styleBlock n b) (AllShaped P false)
  styleEntries : ∀ read, AllShaped P false read → Careful P (styleEntries n read) (AllShaped P false)
  styleStatement : ∀ v, Careful P (styleStatement n v)
    fun found => ∀ e, found = some e → e.Shaped (ComplexSelector.Solid P) false
  styleRule : ∀ rule, QualifiedSound P rule → Careful P (styleRule n rule) (ShapedRule P false)
  resolveAtRule : ∀ rule inStyle, AtRuleSound P rule →
    Careful P (resolveAtRule n rule inStyle) fun e => ∀ inKeyframes, ShapedRule P inKeyframes e
  ruleList : ∀ read, (∀ e ∈ read, ShapedRule P false e) →
    Careful P (ruleList n read) fun es => ∀ e ∈ es, ShapedRule P false e
  keyframes : ∀ read, AllShaped P true read → Careful P (keyframes n read) (AllShaped P true)

theorem idle_styleEntries {R : List Entry → Prop} (hR : R []) (n : Nat) :
    Idle (styleEntries n []) R := by
  intro r hitems
  cases n with
  | zero =>
      rw [styleEntries_zero]
      exact .inr ⟨r, rfl⟩
  | succ n =>
      have hend : r.cursor.peek 0 = none := by simp [Cursor.peek, hitems, Item.peek?]
      rw [Read.styleEntries, bind_ok (peek_run _ r), hend]
      exact .inl ⟨[], r, rfl, rfl, hR⟩

theorem idle_nextRule (n : Nat) :
    Idle (nextRule n) fun found => found = none := by
  intro r hitems
  cases n with
  | zero => exact .inr ⟨r, rfl⟩
  | succ n =>
      have hend : r.cursor.skipWhitespace.peek 0 = none := by
        rw [Cursor.peek_eq_getElem?, Cursor.rest_skipWhitespace]
        simp [Cursor.rest, hitems]
      rw [nextRule, bind_ok (show skipWhitespace r = .ok () { r with
        cursor := r.cursor.skipWhitespace } from rfl), bind_ok (peek_run _ _), hend]
      exact .inl ⟨none, _, rfl, rfl, rfl⟩

/-- With nothing to read there is no rule. -/
theorem Idle.rules {f : Option Rule → Read (List Entry)} {R : List Entry → Prop} (n : Nat)
    (hf : f none = Pure.pure []) (hR : R []) :
    Idle (nextRule n >>= f) R := by
  intro r hitems
  rcases idle_nextRule n r hitems with ⟨_, s, hok, hscopes, rfl⟩ | ⟨s, hstop⟩
  · rw [bind_ok hok, hf]
    exact .inl ⟨[], s, rfl, hscopes, hR⟩
  · exact .inr ⟨s, bind_error hstop⟩

theorem idle_exhausted {R : α → Prop} :
    Idle exhausted R :=
  fun r _ => .inr ⟨r, rfl⟩

theorem idle_ruleList {R : List Entry → Prop} (hR : R []) :
    ∀ n : Nat, Idle (ruleList n []) R
  | 0 => ruleList_zero [] ▸ idle_exhausted
  | n + 1 => by
      rw [Read.ruleList]
      exact .rules n rfl hR

theorem idle_keyframes {R : List Entry → Prop} (hR : R []) :
    ∀ n : Nat, Idle (keyframes n []) R
  | 0 => keyframes_zero [] ▸ idle_exhausted
  | n + 1 => by
      rw [Read.keyframes]
      exact .rules n rfl hR

theorem contents_of_toValue {b : Block} (h : b.toValue.AllTokens P) :
    ∀ v ∈ b.contents, v.AllTokens P := by
  cases h with
  | block _ hcontents _ => exact hcontents

theorem careful_styleStatement (hP : AliasClosed P) {n : Nat} (ih : CarefulBodies P n) (v : Value) :
    Careful P (styleStatement (n + 1) v)
      fun found => ∀ e, found = some e → e.Shaped (ComplexSelector.Solid P) false := by
  cases v with
  | token t =>
      rw [Read.styleStatement]
      split
      · exact .bind careful_next fun _ _ => .none
      · split
        · refine .bind (careful_atRule hP n) fun found hfound => ?_
          split
          · exact .none
          · exact .bind (ih.resolveAtRule _ _ (hfound _ rfl)) fun e he => .some (he false).shaped
        · refine .bind (careful_peek _) fun isStart _ => ?_
          split
          · exact .bind (carefulValues n).variableUse fun _ _ => .none
          · split
            · exact .bind (careful_declaration n) fun d _ => .some (.declaration d)
            · split
              · refine .bind (careful_qualifiedRule n) fun rule hrule => ?_
                exact .bind (ih.styleRule rule hrule) fun e he => .some he.shaped
              · exact .bind (careful_skipStatement n _) fun _ _ => .none
  | _ =>
      rw [Read.styleStatement]
      · exact .bind (careful_skipStatement n _) fun _ _ => .none
      · rintro _ ⟨⟩

theorem careful_resolveAtRule {n : Nat} (ih : CarefulBodies P n) {rule : AtRule} (inStyle : Bool)
    (hrule : AtRuleSound P rule) :
    Careful P (resolveAtRule (n + 1) rule inStyle)
      fun e => ∀ inKeyframes, ShapedRule P inKeyframes e := by
  rw [Read.resolveAtRule]
  split
  · next hblock =>
      refine .pure fun inKeyframes => ?_
      simp only [AtRule.resolved, hblock]
      exact ⟨.statement _ _, rfl⟩
  · next b hblock =>
      have hcontents := contents_of_toValue (hrule.block b hblock)
      have hgroup {x : Read (List Entry)} {inBody : Bool}
          (hkind : (BodyKind.ofName rule.name.text == .keyframes) = inBody)
          (hx : Careful P x (AllShaped P inBody)) :
          Careful P (do return rule.resolved (← x))
            fun e => ∀ inKeyframes, ShapedRule P inKeyframes e := by
        refine .bind hx fun body hbody => .pure fun inKeyframes => ?_
        simp only [AtRule.resolved, hblock]
        exact ⟨.group (hkind ▸ hbody), rfl⟩
      split
      · next hkind =>
          refine hgroup (by rw [hkind]) ?_
          exact careful_body hcontents (ih.keyframes [] (List.forall_mem_nil _)) (idle_keyframes (List.forall_mem_nil _) n)
      · next hkind =>
          refine hgroup (by rw [hkind]) ?_
          refine careful_body hcontents ?_ (idle_ruleList (List.forall_mem_nil _) n)
          exact (ih.ruleList [] (List.forall_mem_nil _)).weaken fun es hes e he => (hes e he).shaped
      · next hother _ =>
          exact hgroup (beq_eq_false_iff_ne.mpr hother) (ih.styleBlock b hcontents)

theorem careful_bodies (hP : AliasClosed P) (n : Nat) :
    CarefulBodies P n := by
  induction n with
  | zero =>
      constructor <;> intros <;> simp only [styleBlock_zero, styleEntries_zero, styleStatement_zero,
        styleRule_zero, resolveAtRule_zero, ruleList_zero, keyframes_zero] <;> exact careful_exhausted
  | succ n ih =>
      refine ⟨?_, ?_, careful_styleStatement hP ih, ?_, fun _ => careful_resolveAtRule ih, ?_, ?_⟩
      · intro b hb
        rw [Read.styleBlock]
        exact careful_body hb (ih.styleEntries [] (List.forall_mem_nil _)) (idle_styleEntries (List.forall_mem_nil _) n)
      · intro read hread
        rw [Read.styleEntries]
        refine .bind (careful_peek _) fun front _ => ?_
        split
        · exact .pure hread.reverse
        · refine .bind (ih.styleStatement _) fun found hfound => ?_
          split
          · exact ih.styleEntries _ (.cons (hfound _ rfl) hread)
          · exact ih.styleEntries _ hread
      · intro rule hrule
        obtain ⟨hselectors, hfault⟩ := Selector.sound_parse hrule.prelude
        rw [Read.styleRule]
        split
        · next herror => exact careful_fail (hfault _ herror)
        · next hok =>
            refine .bind (ih.styleBlock _ (contents_of_toValue hrule.block)) fun body hbody => .pure ?_
            exact ⟨.style (hselectors _ hok) hbody, rfl⟩
      · intro read hread
        rw [Read.ruleList]
        refine .bind (careful_nextRule hP n) fun found hfound => ?_
        split
        · exact .pure fun e he => hread e (List.mem_reverse.mp he)
        · refine .bind (ih.styleRule _ (hfound _ rfl)) fun e he => ?_
          exact ih.ruleList _ (List.forall_mem_cons.mpr ⟨he, hread⟩)
        · refine .bind (ih.resolveAtRule _ _ (hfound _ rfl)) fun e he => ?_
          exact ih.ruleList _ (List.forall_mem_cons.mpr ⟨he false, hread⟩)
      · intro read hread
        rw [Read.keyframes]
        refine .bind (careful_nextRule hP n) fun found hfound => ?_
        split
        · exact .pure hread.reverse
        · next rule =>
            have hrule : QualifiedSound P rule := hfound _ rfl
            refine .bind (ih.styleBlock _ (contents_of_toValue hrule.block)) fun body hbody => ?_
            exact ih.keyframes _ (.cons (.keyframe hbody) hread)
        · refine .bind (ih.resolveAtRule _ _ (hfound _ rfl)) fun e he => ?_
          exact ih.keyframes _ (.cons (he true).shaped hread)

end Read

/-! ## Scopes and blocks of every reader -/

theorem Value.allTokens_of_forall {P : Token → Prop} (h : ∀ t, P t) (v : Value) :
    v.AllTokens P := by
  cases v with
  | token t => exact .token (h t)
  | block opener contents closer =>
      exact .block ⟨h opener, .inr h⟩ (fun v _ => allTokens_of_forall h v) fun t _ => h t
  | call name args commas closer =>
      exact .call (h name) (fun _ _ v _ => allTokens_of_forall h v) (fun t _ => h t) fun t _ => h t
  | reference dollar name => exact .reference (h dollar) (h name)
termination_by sizeOf v
decreasing_by
  · next hv =>
      have := List.sizeOf_lt_of_mem hv
      simp only [Value.block.sizeOf_spec]
      omega
  · next harg hv =>
      have := List.sizeOf_lt_of_mem harg
      have := List.sizeOf_lt_of_mem hv
      simp only [Value.call.sizeOf_spec]
      omega

/-- Every reader is sound for a property of all tokens. -/
theorem Reader.sound_of_forall {P : Token → Prop} (h : ∀ t, P t) (r : Reader) :
    r.Sound P := by
  have hall := Value.allTokens_of_forall h
  refine ⟨⟨fun v _ => (hall v).sound, ⟨⟨.eof, "", r.cursor.last, .none⟩, h _, rfl⟩⟩, fun f _ => ?_⟩
  exact ⟨fun _ _ v _ => hall v, fun _ _ v _ => hall v,
    fun _ _ => ⟨fun v _ => hall v, fun _ _ _ _ v _ => hall v⟩⟩

/-- Behind the body of a mixin the scope that was entered for it can be left. -/
theorem Read.exit?_block (n : Nat) (names : List String) (r : Reader) :
    ((Read.block n).after { r with scopes := r.scopes.enterCapture names }).scopes.exit? =
      some r.scopes := by
  have houter := ((steady_values n).block { r with scopes := r.scopes.enterCapture names }).outer
  rw [Scopes.exit?, houter]
  rfl

/-! ## Stylesheets -/

/-- A stylesheet is read without a fault that is not genuine, and its rules have their shape. -/
theorem Sheet.safe_ruleList {P : Token → Prop} (hP : AliasClosed P) {ts : List Token}
    (hts : ∀ t ∈ ts, P t) (hend : ∃ t ∈ ts, t.type = .eof) (budget : Nat) (limits : Limits) :
    Read.Safe P (fun es => ∀ e ∈ es, Read.ShapedRule P false e)
      (Read.ruleList budget [] (.ofTokens ts limits)) :=
  (Read.careful_bodies hP budget).ruleList [] (List.forall_mem_nil _) _ (Reader.sound_ofTokens limits hts hend)

theorem Diagnostic.Sound.withFile {P : Token → Prop} {d : Diagnostic} (h : d.Sound P)
    (file : String) :
    (d.withFile file).Sound P := by
  unfold Diagnostic.withFile
  split
  · exact ⟨h.genuine, h.position.imp id fun hd => ⟨hd.position, hd.token, hd.cause⟩⟩
  · exact h

theorem Sheet.sound_of_fault {P : Token → Prop} (hP : AliasClosed P) {ts : List Token}
    (hts : ∀ t ∈ ts, P t) (hend : ∃ t ∈ ts, t.type = .eof) {budget : Nat} {limits : Limits}
    {file : String} {d : Diagnostic}
    (h : (parseTokens budget limits file ts).1 = .error (.fault d)) :
    d.Sound P := by
  have hsafe := safe_ruleList hP hts hend budget limits
  unfold parseTokens run at h
  cases hrun : Read.ruleList budget [] (.ofTokens ts limits) with
  | ok rules s =>
      rw [hrun] at h
      cases h
  | error stop s =>
      rw [hrun] at h hsafe
      cases stop with
      | exhausted => cases h
      | fault e =>
          cases h
          exact hsafe.withFile file

/-- A token that stands where one of the list stands. -/
def StandsIn (ts : List Token) (t : Token) : Prop :=
  ∃ s ∈ ts, s.position = t.position

theorem aliasClosed_standsIn (ts : List Token) :
    AliasClosed (StandsIn ts) :=
  ⟨id, id⟩

namespace Lexer

theorem Covers.one_le {before rest : List Char} {tokens : List Token}
    (h : Covers before rest tokens) :
    ∀ t ∈ tokens, 1 ≤ t.position.line ∧ 1 ≤ t.position.column := by
  have hbehind (u : List Char) :
      1 ≤ (Position.behind u).line ∧ 1 ≤ (Position.behind u).column :=
    ⟨Nat.le_add_right 1 _, Nat.le_add_right 1 _⟩
  induction h with
  | eof => exact List.forall_mem_singleton.mpr (hbehind _)
  | token _ hposition _ _ ih => exact List.forall_mem_cons.mpr ⟨hposition ▸ hbehind _, ih⟩

theorem exists_eof (source : String) :
    ∃ t ∈ tokenize source, t.type = .eof := by
  obtain ⟨ts, last, htokens, -, hlast, -⟩ := (covers_tokenize source).exists_last
  exact ⟨last, by simp [htokens], hlast⟩

end Lexer

namespace Sheet

/-- A fault stands at the place of a token of the source exactly when it has a place, and then its
line and column count from one.  A fault without a place is found at the end of the input; it says
that a selector is empty or that blocks are nested too deeply. -/
theorem fault_position_iff {budget : Nat} {limits : Limits} {file source : String} {d : Diagnostic}
    (h : (parseTokens budget limits file (tokenize source)).1 = .error (.fault d)) :
    ((∃ t ∈ tokenize source, d.position = t.position) ↔ d.position ≠ Position.none) ∧
      (d.position ≠ Position.none → 1 ≤ d.position.line ∧ 1 ≤ d.position.column) ∧
      (d.position = Position.none →
        d.token = none ∧ (d.cause = .emptySelector ∨ ∃ limit, d.cause = .nestingLimit limit)) := by
  have hplaces := (Lexer.covers_tokenize source).one_le
  have hplaced {t : Token} (ht : t ∈ tokenize source) : t.position ≠ Position.none := by
    intro hnone
    have hline := (hplaces t ht).1
    rw [hnone] at hline
    cases hline
  have hsound := sound_of_fault (aliasClosed_standsIn (tokenize source)) (fun t ht => ⟨t, ht, rfl⟩)
    (Lexer.exists_eof source) h
  rcases hsound.position with ⟨t, ⟨s, hs, hst⟩, ht⟩ | hunplaced
  · have hposition : d.position = s.position := ht.symm.trans hst.symm
    rw [hposition]
    exact ⟨iff_of_true ⟨s, hs, rfl⟩ (hplaced hs), fun _ => hplaces s hs,
      fun hnone => absurd hnone (hplaced hs)⟩
  · refine ⟨⟨?_, fun hne => absurd hunplaced.position hne⟩, fun hne => absurd hunplaced.position hne,
      fun _ => ⟨hunplaced.token, hunplaced.cause⟩⟩
    rintro ⟨t, ht, hposition⟩
    rw [hposition]
    exact hplaced ht

/-- A declaration that uses a variable which nothing declares. -/
def undeclaredUse : String :=
  "a\x7bb:$c\x7d"

theorem parse_undeclaredUse :
    ∃ d, (parse {} "" undeclaredUse).1 = .error (.fault d) ∧ d.position ≠ Position.none := by
  obtain ⟨outcome, h⟩ : ∃ outcome, (parse {} "" undeclaredUse).1 = outcome := ⟨_, rfl⟩
  rw [h]
  cbv at h
  subst h
  exact ⟨_, rfl, by decide⟩

theorem fault_position_undeclaredUse :
    ∃ d, (parse {} "" undeclaredUse).1 = .error (.fault d) ∧ d.position ≠ Position.none ∧
      ∃ t ∈ tokenize undeclaredUse, d.position = t.position := by
  obtain ⟨d, h, hplace⟩ := parse_undeclaredUse
  exact ⟨d, h, hplace, (fault_position_iff h).1.mpr hplace⟩

/-- The fault in a rule without a prelude has no place. -/
theorem fault_position_emptyPrelude :
    ∃ d, (parse {} "" "\x7b\x7d").1 = .error (.fault d) ∧
      ∀ t ∈ tokenize "\x7b\x7d", d.position ≠ t.position := by
  obtain ⟨outcome, h⟩ : ∃ outcome, (parse {} "" "\x7b\x7d").1 = outcome := ⟨_, rfl⟩
  have houtcome := h
  cbv at houtcome
  subst houtcome
  exact ⟨_, h, by decide +kernel⟩

/-! ## Kinds of fault -/

/-- A genuine fault is of one of four kinds, and not that of a closer that does not match. -/
theorem kind_of_genuine {cause : Cause} (h : cause.isGenuine = true) :
    cause.kind ∈ [.malformed, .undeclaredVariable, .undeclaredMixin, .recursionLimit] ∧
      ∀ type, cause ≠ .mismatchedCloser type := by
  cases cause <;> simp_all [Cause.isGenuine, Cause.kind]

/-- Reading a stylesheet to any depth of steps ends with a result, with a fault of one of four kinds,
or because no step is left: no value has a wrong type, no block a wrong opener and no value of a
declaration a closer that does not match.  Behind the captured body of a mixin there is the scope to
leave that was entered, and every qualified rule has a block in braces. -/
theorem faults_are_genuine :
    (∀ (budget : Nat) (limits : Limits) (file source : String) (stop : Stop),
      (parseTokens budget limits file (tokenize source)).1 = .error stop →
        stop = .exhausted ∨ ∃ d, stop = .fault d ∧
          d.kind ∈ [.malformed, .undeclaredVariable, .undeclaredMixin, .recursionLimit] ∧
          ∀ type, d.cause ≠ .mismatchedCloser type) ∧
    (∀ (n : Nat) (names : List String) (r : Reader),
      ((Read.block n).after { r with scopes := r.scopes.enterCapture names }).scopes.exit? =
        some r.scopes) ∧
    (∀ (n : Nat) (r s : Reader) (rule : QualifiedRule),
      Read.qualifiedRule n r = .ok rule s → rule.block.isBraced = true) ∧
    ∀ (n : Nat) (r s : Reader) (rule : QualifiedRule),
      Read.nextRule n r = .ok (some (.qualified rule)) s → rule.block.isBraced = true := by
  refine ⟨fun budget limits file source stop h => ?_, Read.exit?_block, ?_, ?_⟩
  · cases stop with
    | exhausted => exact .inl rfl
    | fault d =>
        have hsound := sound_of_fault (aliasClosed_standsIn (tokenize source))
          (fun t ht => ⟨t, ht, rfl⟩) (Lexer.exists_eof source) h
        exact .inr ⟨d, rfl, kind_of_genuine hsound.genuine⟩
  · intro n r s rule h
    have hsafe := Read.careful_qualifiedRule n r (Reader.sound_of_forall (fun _ => trivial) r)
    rw [h] at hsafe
    exact hsafe.2.braced
  · intro n r s rule h
    have hsafe := Read.careful_nextRule ⟨id, id⟩ n r (Reader.sound_of_forall (fun _ => trivial) r)
    rw [h] at hsafe
    exact (hsafe.2 _ rfl).braced

theorem faults_are_genuine_undeclaredUse :
    (∃ d, (parse {} "" undeclaredUse).1 = .error (.fault d) ∧
      d.kind ∈ [.malformed, .undeclaredVariable, .undeclaredMixin, .recursionLimit] ∧
      ∀ type, d.cause ≠ .mismatchedCloser type) ∧
    (∃ rule s, Read.qualifiedRule 9 (.ofTokens (tokenize undeclaredUse) {}) = .ok rule s ∧
      rule.block.isBraced = true) ∧
    ∃ rule s, Read.nextRule 9 (.ofTokens (tokenize undeclaredUse) {}) =
      .ok (some (.qualified rule)) s ∧ rule.block.isBraced = true := by
  obtain ⟨hkinds, -, hqualified, hnext⟩ := faults_are_genuine
  refine ⟨?_, ?_, ?_⟩
  · obtain ⟨d, h, -⟩ := parse_undeclaredUse
    obtain hstop | ⟨e, he, hkind⟩ := hkinds _ _ _ _ _ h
    · cases hstop
    · cases he
      exact ⟨d, h, hkind⟩
  · obtain ⟨outcome, h⟩ : ∃ outcome, Read.qualifiedRule 9 (.ofTokens (tokenize undeclaredUse) {}) =
        outcome := ⟨_, rfl⟩
    have houtcome := h
    cbv at houtcome
    subst houtcome
    exact ⟨_, _, h, hqualified _ _ _ _ h⟩
  · obtain ⟨outcome, h⟩ : ∃ outcome, Read.nextRule 9 (.ofTokens (tokenize undeclaredUse) {}) =
        outcome := ⟨_, rfl⟩
    have houtcome := h
    cbv at houtcome
    subst houtcome
    exact ⟨_, _, h, hnext _ _ _ _ h⟩

end Sheet
end Cascade

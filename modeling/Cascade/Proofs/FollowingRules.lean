import Cascade.Proofs.Following

/-!
# What follows a rule

The comparison of two readers goes on with mixins and rules: what the first reader
reads without touching the sentinel, the second one reads with the same result.

**Method.**  An inclusion puts the bodies of mixins in front of what is left.  Where the
sentinel has been read by then, a marker is the last item, so that the sentinel is not:
the first reader is `Lost`.  The body of a rule is read apart from what follows the rule.

**Results.**
* `parallel_defineMixin`, `parallel_includeMixins`: mixins.
* `parallel_atRule`, `parallel_qualifiedRule`: rules.
-/

namespace Cascade
namespace Read

open Reader (Abreast BothAt Drained Spent Lost)

variable {α β : Type} {us : List Item} {P Q : Reader → Prop} {r s t u : Reader} {v : Value}

/-! ## Mixins -/

theorem stops_fallbackEnd :
    Stops us fallbackEnd where
  both := by
    intro read r s v hfront
    unfold fallbackEnd
    refine .peek ?_
    simp only [hfront.left, hfront.right]
    split
    · exact .pure hfront.abreast _
    · exact .pure hfront.abreast _
  drained := by
    intro read r h
    unfold fallbackEnd
    rw [bind_ok (peek_run _ r), h.peek]
    exact h
  sentinel := by
    intro read r hpeek
    unfold fallbackEnd
    rw [bind_ok (peek_run _ r), hpeek]
    rfl

/-- What stands behind a parameter: a comma, or the closing parenthesis. -/
def behindParameter (mixin : Token) (n : Nat) (seenDefault : Bool) (read : List Parameter) :
    Read (List Parameter) := do
  skipWhitespace
  if ← peek (·.check 0 .comma) then
    let _ ← next
    parameters mixin n seenDefault read
  else if ← peek (·.check 0 .closeParen) then
    parameters mixin n seenDefault read
  else
    failAt 0 .parameterSeparator

theorem lands_behindParameter (mixin : Token) (n : Nat) (seenDefault : Bool) (read : List Parameter)
    (h : r.Spent) :
    Lands P (behindParameter mixin n seenDefault read r) := by
  unfold behindParameter
  refine .skip h (.peek ?_)
  simp only [h.check (show TokenType.comma ≠ .delim from nofun)]
  refine .peek ?_
  simp only [h.check (show TokenType.closeParen ≠ .delim by decide)]
  trivial

theorem lands_parameters (mixin : Token) (n : Nat) (seenDefault : Bool) (read : List Parameter)
    (h : r.Spent) :
    Lands P (parameters mixin n seenDefault read r) := by
  cases n with
  | zero => trivial
  | succ n =>
      rw [parameters]
      refine .skip h (.peek ?_)
      split
      · trivial
      · refine .peek ?_
        simp only [h.check (show TokenType.closeParen ≠ .delim by decide)]
        exact (lands_expects (expects_consumeDelim _ _) rfl h).bind fun _ _ h => h.elim

theorem parallel_behindParameter {mixin : Token} {n : Nat} {seenDefault : Bool}
    {read : List Parameter} (h : Abreast us r s)
    (ih : ∀ r s, Abreast us r s → Parallel us Drained (parameters mixin n seenDefault read r)
      (parameters mixin n seenDefault read s)) :
    Parallel us Drained (behindParameter mixin n seenDefault read r)
      (behindParameter mixin n seenDefault read s) := by
  unfold behindParameter
  refine .skip h (fun v t u hfront => .peek ?_) fun t ht => lands_behindParameter mixin n _ _ ht
  rw [hfront.check]
  split
  · exact (parallel_next hfront).bind_sure fun _ t u h => ih t u h
  · refine .peek ?_
    rw [hfront.check]
    split
    · exact ih t u hfront.abreast
    · exact .stopped

theorem parallel_parameters (hus : Item.Silent us) (mixin : Token) :
    ∀ {n : Nat} {seenDefault : Bool} {read : List Parameter} {r s : Reader}, Abreast us r s →
      Parallel us Drained (parameters mixin n seenDefault read r)
        (parameters mixin n seenDefault read s)
  | 0, _, _, _, _, _ => .stopped
  | n + 1, seenDefault, read, r, s, h => by
      have hlands (t : Reader) (ht : t.Spent) := lands_parameters (P := Drained) mixin (n + 1)
        seenDefault read ht
      rw [parameters] at hlands ⊢
      refine .skip h (fun v t u hfront => .peek ?_) hlands
      have hend : u.cursor.atEnd = t.cursor.atEnd := by
        simp [Cursor.atEnd, hfront.left, hfront.right]
      rw [hend]
      split
      · exact .stopped
      refine .peek ?_
      rw [hfront.check]
      split
      · refine (parallel_next hfront).bind_sure fun _ t u h => ?_
        exact .pure h _
      refine (parallel_expects (expects_consumeDelim _ _) rfl hfront.abreast).bind_sure
        fun _ t u h => ?_
      refine (parallel_expects (expects_consume _ rfl) rfl h).bind_sure fun name t u h => ?_
      refine .skip h (fun v t u hfront => .peek ?_) fun t ht => ?_
      · rw [hfront.checkDelim, hfront.check]
        split
        · refine (parallel_next hfront).bind_sure fun _ t u h => ?_
          refine ((parallel_values hus n).collect stops_fallbackEnd h).bind
            (fun fallback t u h => ?_) fun fallback t ht => ?_
          · exact parallel_behindParameter h fun _ _ h => parallel_parameters hus mixin h
          · exact lands_behindParameter mixin n _ _ (.inl ht)
        · split
          · exact .stopped
          · exact parallel_behindParameter hfront.abreast
              fun _ _ h => parallel_parameters hus mixin h
      · refine .skip ht (.peek ?_)
        simp only [ht.checkDelim (show "=" ≠ "?" by decide),
          ht.check (show TokenType.colon ≠ .delim by decide), Bool.or_self, Bool.false_eq_true,
          if_false]
        split
        · trivial
        · exact lands_behindParameter mixin n _ _ ht

theorem lands_mixinHead (n : Nat) (h : r.Spent) :
    Lands (fun _ => False) (mixinHead n r) := by
  unfold mixinHead
  refine .peek ?_
  unfold Cursor.peekToken
  rcases h.cases with hdrained | hpeek
  · rw [hdrained.peek]
    trivial
  · rw [hpeek]
    trivial

theorem parallel_mixinHead (hus : Item.Silent us) (h : BothAt us v r s) (n : Nat) :
    Parallel us Drained (mixinHead n r) (mixinHead n s) := by
  unfold mixinHead
  refine .peek ?_
  unfold Cursor.peekToken
  simp only [h.left, h.right]
  cases v with
  | token t =>
      dsimp only
      split
      · refine (parallel_next h).bind_sure fun _ t u h => ?_
        exact .pure h _
      split
      · refine (parallel_next h).bind_sure fun _ t u h => ?_
        refine (parallel_parameters hus _ h).bind (fun ps t u h => ?_) fun ps t ht => ht
        exact .pure h _
      · exact .stopped
  | _ => exact .stopped

/-- The body of a mixin, read behind its head. -/
def defineBody (n : Nat) (head : Token × Option (List Parameter)) : Read Unit := do
  skipWhitespace
  let names := (head.2.getD []).map (·.name)
  let body ←
    match ← peek (·.peek 0) with
    | some (.token t) =>
      if t.type = .openBrace then
        let b ← capturing names (block n)
        pure b.contents
      else
        failAt 0 (.mixinBody head.1.text)
    | some (.block opener contents _) =>
      if opener.type = .openBrace then
        let _ ← next
        pure contents
      else
        failAt 0 (.mixinBody head.1.text)
    | _ => failAt 0 (.mixinBody head.1.text)
  updateScopes (·.setMixin head.1.text ⟨head.2, body⟩)
  record (.mixinDefined head.1.text names.length head.1.position.line)

theorem defineMixin_eq (n : Nat) :
    defineMixin n = (do
      skipWhitespace
      let head ← mixinHead n
      defineBody n head) :=
  rfl

theorem lands_defineBody (n : Nat) (head : Token × Option (List Parameter)) (h : r.Spent) :
    Lands P (defineBody n head r) := by
  unfold defineBody
  refine .skip h (.peek ?_)
  rcases h.cases with hdrained | hpeek
  · simp only [hdrained.peek]
    trivial
  · simp only [hpeek]
    trivial

theorem parallel_defineBody (hus : Item.Silent us) (h : Abreast us r s) (n : Nat)
    (head : Token × Option (List Parameter)) :
    Parallel us Drained (defineBody n head r) (defineBody n head s) := by
  have hset {r s : Reader} (h : Abreast us r s) (body : List Value) (k : Nat) :
      Parallel us Drained
        ((do
          updateScopes (·.setMixin head.1.text ⟨head.2, body⟩)
          record (.mixinDefined head.1.text k head.1.position.line) : Read Unit) r)
        ((do
          updateScopes (·.setMixin head.1.text ⟨head.2, body⟩)
          record (.mixinDefined head.1.text k head.1.position.line) : Read Unit) s) :=
    (parallel_updateScopes h _).bind_sure fun _ _ _ h => parallel_record h _
  unfold defineBody
  refine .skip h (fun v t u hfront => .peek ?_) fun t ht => lands_defineBody n head ht
  simp only [hfront.left, hfront.right]
  cases v with
  | token o =>
      dsimp only
      split
      · next hbrace =>
          have hopener : o.type.isOpener = true := by
            rw [hbrace]
            rfl
          refine (Parallel.capturing hfront.abreast _ fun w x h hw => ?_).bind
            (fun b w x h => hset h _ _) fun b w hw => hw
          refine (parallel_values hus n).block (h.bothAt ?_ ?_) hopener
          · rw [hw]
            exact hfront.left
          · rintro ⟨⟩
            cases hbrace
      · exact .stopped
  | block opener contents closer =>
      dsimp only
      split
      · exact (parallel_next hfront).bind_sure fun _ w x h => hset h _ _
      · exact .stopped
  | _ => exact .stopped

theorem parallel_defineMixin (hus : Item.Silent us) (h : Abreast us r s) (n : Nat) :
    Parallel us Drained (defineMixin n r) (defineMixin n s) := by
  rw [defineMixin_eq]
  refine .skip h (fun v t u hfront => ?_) fun t ht => ?_
  · exact (parallel_mixinHead hus hfront n).bind (fun head t u h => parallel_defineBody hus h n head)
      fun head t ht => lands_defineBody n head (.inl ht)
  · exact .skip ht ((lands_mixinHead n ht).bind fun _ _ h => h.elim)

theorem parallel_instantiate (h : Abreast us r s) (name : Token) (args : List (List Value)) :
    Parallel us P (instantiate name args r) (instantiate name args s) := by
  have hscopes : s.scopes = r.scopes := by
    obtain ⟨l, _, rfl⟩ := h
    rfl
  unfold instantiate
  refine .look ?_
  rw [hscopes]
  cases r.scopes.findMixin? name.text with
  | none => exact .stopped
  | some m =>
      dsimp only
      cases m.instantiate name.text args with
      | ok body => exact .pure h _
      | error cause => exact .stopped

theorem lands_instantiate (h : r.Drained) (name : Token) (args : List (List Value)) :
    Lands Drained (instantiate name args r) := by
  unfold instantiate
  refine .look ?_
  cases r.scopes.findMixin? name.text with
  | none => trivial
  | some m =>
      dsimp only
      cases m.instantiate name.text args with
      | ok body => exact h
      | error cause => trivial

/-- At the sentinel no target is found, and the end of the input ends the list. -/
theorem lands_targets (n : Nat) (read : List (String × List Value)) (h : r.Spent) :
    Lands Drained (targets n read r) := by
  cases n with
  | zero => trivial
  | succ n =>
      rw [targets]
      refine .skip h (.peek ?_)
      rcases h.cases with hdrained | hpeek
      · simp only [hdrained.peek]
        exact hdrained
      · simp only [hpeek]
        trivial

theorem parallel_targets (hus : Item.Silent us) :
    ∀ {n : Nat} {read : List (String × List Value)} {r s : Reader}, Abreast us r s →
      Parallel us Drained (targets n read r) (targets n read s)
  | 0, _, _, _, _ => .stopped
  | n + 1, read, r, s, h => by
      have hlands (t : Reader) (ht : t.Spent) := lands_targets (n + 1) read ht
      have htarget {name : Token} {args : List (List Value)} {r s : Reader} (h : Abreast us r s) :
          Parallel us Drained
            ((do
              let body ← instantiate name args
              targets n ((name.text, body) :: read) : Read _) r)
            ((do
              let body ← instantiate name args
              targets n ((name.text, body) :: read) : Read _) s) :=
        (parallel_instantiate h name args).bind_sure fun _ _ _ h => parallel_targets hus h
      rw [targets] at hlands ⊢
      refine .skip h (fun v t u hfront => .peek ?_) hlands
      simp only [hfront.left, hfront.right]
      cases v with
      | token o =>
          dsimp only
          split
          · refine (parallel_next hfront).bind_sure fun _ w x h => ?_
            exact .pure h _
          split
          · exact (parallel_next hfront).bind_sure fun _ w x h => parallel_targets hus h
          split
          · exact (parallel_next hfront).bind_sure fun _ w x h => htarget h
          split
          · next hfunction =>
              refine ((parallel_values hus n).call hfront hfunction).bind
                (fun c w x h => htarget h) fun c w hw => ?_
              exact (lands_instantiate hw _ _).bind fun body x hx => lands_targets n _ (.inl hx)
          · exact .stopped
      | call name args commas closer =>
          exact (parallel_next hfront).bind_sure fun _ w x h => htarget h
      | _ => exact .stopped

theorem parallel_expand {found : List (String × List Value)} (h : Abreast us r s) :
    Parallel us P (expand found r) (expand found s) := by
  induction found generalizing r s with
  | nil => exact .pure h _
  | cons target found ih =>
      obtain ⟨name, body⟩ := target
      have hsplice : Parallel us (fun _ => False) (spliceExpansion name body r)
          (spliceExpansion name body s) :=
        .abreast (h.spliceExpansion name body)
      rw [expand]
      refine hsplice.bind_sure fun _ t u h => .peek ?_
      have hdepth : u.cursor.depth = t.cursor.depth := by
        obtain ⟨l, _, rfl⟩ := h
        rfl
      rw [hdepth]
      exact (parallel_record h _).bind_sure fun _ t u h => ih h

/-- Behind the body of a mixin there is a marker. -/
theorem lands_expand {found : List (String × List Value)} (h : r.Lost) :
    Lands Lost (expand found r) := by
  induction found generalizing r with
  | nil => exact h
  | cons target found ih =>
      obtain ⟨name, body⟩ := target
      refine ih ?_
      change (body.map Item.value ++ .marker name :: r.cursor.items).getLast? ≠ _
      rw [List.getLast?_append, List.getLast?_cons, Option.some_or]
      cases hlast : r.cursor.items.getLast? with
      | none => exact nofun
      | some item =>
          have hitem : item ≠ .value (.token sentinel) := fun heq => h (heq ▸ hlast)
          simpa using hitem

theorem parallel_includeMixins (hus : Item.Silent us) (h : Abreast us r s) (n : Nat)
    (keyword : Token) :
    Parallel us Lost (includeMixins n keyword r) (includeMixins n keyword s) := by
  unfold includeMixins
  refine (parallel_targets hus h).bind (fun found t u h => ?_) fun found t ht => ?_
  · have hlimits : u.limits = t.limits ∧ u.cursor.depth = t.cursor.depth := by
      obtain ⟨l, _, rfl⟩ := h
      exact ⟨rfl, rfl⟩
    cases found.getLast? with
    | none => exact .stopped
    | some first =>
        refine .look (.peek ?_)
        rw [hlimits.1, hlimits.2]
        split
        · exact .stopped
        · exact parallel_expand h
  · cases found.getLast? with
    | none => trivial
    | some first =>
        refine .look (.peek ?_)
        split
        · trivial
        · exact lands_expand ht.lost

/-! ## Rules -/

/-- The sentinel does not close a block, or it is the last that is read of it. -/
theorem lands_rawContents {opener : Token} {closer : TokenType} {n : Nat} {due : List TokenType}
    {read : List Value} (h : r.Spent) (hn : r.cursor.items.length < n) :
    Lands Drained (scan (Scan.rawContents opener closer n due read) r) := by
  have hend {t : Reader} {k : Nat} {due : List TokenType} {read : List Value} (ht : t.Drained) :
      Lands Drained (scan (Scan.rawContents opener closer (k + 1) due read) t) := by
    rw [scan_rawContents_none ht.peek]
    exact lands_next (.inl ht)
  obtain ⟨n, rfl⟩ : ∃ k, n = k + 1 := ⟨n - 1, by omega⟩
  rcases h.cases with hdrained | hpeek
  · exact hend hdrained
  · have hnext : Reader.Drained { r with cursor := r.cursor.next.2 } := lands_next h
    have hlength := Cursor.length_next_lt hpeek
    obtain ⟨n, rfl⟩ : ∃ k, n = k + 1 := ⟨n - 1, by omega⟩
    rw [scan_rawContents_some hpeek]
    dsimp only
    split
    · exact hnext
    · exact hend hnext

theorem parallel_rawContents {opener : Token} {closer : TokenType} {n m : Nat}
    {due : List TokenType} {read : List Value} (h : Abreast us r s)
    (hn : r.cursor.items.length < n) (hm : s.cursor.items.length < m) :
    Parallel us Drained (scan (Scan.rawContents opener closer n due read) r)
      (scan (Scan.rawContents opener closer m due read) s) := by
  induction n generalizing m due read r s with
  | zero => omega
  | succ n ih =>
      rcases h.front with hspent | ⟨v, hfront⟩
      · exact .of_lands (lands_rawContents hspent hn)
      obtain ⟨m, rfl⟩ : ∃ k, m = k + 1 := ⟨m - 1, by omega⟩
      have hlength := Cursor.length_next_lt hfront.left
      have hlength' := Cursor.length_next_lt hfront.right
      have hmore {due : List TokenType} {read : List Value} :
          Parallel us Drained
            (scan (Scan.rawContents opener closer n due read) { r with cursor := r.cursor.next.2 })
            (scan (Scan.rawContents opener closer m due read)
              { s with cursor := s.cursor.next.2 }) := by
        refine ih hfront.passed ?_ ?_
        · change r.cursor.next.2.items.length < n
          omega
        · change s.cursor.next.2.items.length < m
          omega
      rw [scan_rawContents_some hfront.left, scan_rawContents_some hfront.right]
      cases v with
      | token t =>
          dsimp only
          split
          · exact .abreast hfront.passed
          · exact hmore
      | _ => exact hmore

theorem parallel_rawBlock {t : Token} (h : BothAt us (.token t) r s) (ht : t.type.isOpener = true) :
    Parallel us Drained (scan Scan.rawBlock r) (scan Scan.rawBlock s) := by
  obtain ⟨closer, hcloser⟩ := Option.isSome_iff_exists.mp ht
  rw [scan_rawBlock h.left hcloser, scan_rawBlock h.right hcloser]
  exact parallel_rawContents h.passed (Nat.lt_succ_self _) (Nat.lt_succ_self _)

theorem stops_atRuleEnd (name : Token) :
    Stops us (atRuleEnd name) where
  both := by
    intro read r s v hfront
    unfold atRuleEnd
    refine .peek ?_
    simp only [hfront.left, hfront.right]
    cases v with
    | token t =>
        dsimp only
        split
        · refine (parallel_next hfront).bind_sure fun _ t u h => ?_
          exact .pure h _
        split
        · next hbrace =>
            have hopener : t.type.isOpener = true := by
              rw [hbrace]
              rfl
            refine (parallel_rawBlock hfront hopener).bind (fun b t u h => ?_) fun b t ht => ht
            exact .pure h _
        · exact .pure hfront.abreast _
    | block opener contents closer =>
        dsimp only
        split
        · refine (parallel_next hfront).bind_sure fun _ t u h => ?_
          exact .pure h _
        · exact .pure hfront.abreast _
    | _ => exact .pure hfront.abreast _
  drained := by
    intro read r h
    unfold atRuleEnd
    rw [bind_ok (peek_run _ r), h.peek]
    exact h
  sentinel := by
    intro read r hpeek
    unfold atRuleEnd
    rw [bind_ok (peek_run _ r), hpeek]
    rfl

theorem stops_qualifiedEnd :
    Stops us qualifiedEnd where
  both := by
    intro read r s v hfront
    unfold qualifiedEnd
    refine .peek ?_
    simp only [hfront.left, hfront.right]
    cases v with
    | token t =>
        dsimp only
        split
        · next hbrace =>
            have hopener : t.type.isOpener = true := by
              rw [hbrace]
              rfl
            refine (parallel_rawBlock hfront hopener).bind (fun b t u h => ?_) fun b t ht => ht
            exact .pure h _
        · exact .pure hfront.abreast _
    | block opener contents closer =>
        dsimp only
        split
        · refine (parallel_next hfront).bind_sure fun _ t u h => ?_
          exact .pure h _
        · exact .pure hfront.abreast _
    | _ => exact .pure hfront.abreast _
  drained := by
    intro read r h
    unfold qualifiedEnd
    rw [bind_ok (peek_run _ r), h.peek]
    trivial
  sentinel := by
    intro read r hpeek
    unfold qualifiedEnd
    rw [bind_ok (peek_run _ r), hpeek]
    rfl

theorem parallel_qualifiedRule (hus : Item.Silent us) (h : Abreast us r s) (n : Nat) :
    Parallel us Drained (qualifiedRule n r) (qualifiedRule n s) :=
  (parallel_values hus n).collect stops_qualifiedEnd h

theorem parallel_expandAlias (h : Abreast us r s) (name : Token) (values : List Value) :
    Parallel us P (expandAlias name values r) (expandAlias name values s) := by
  have hsplice (vs : List Value) : Parallel us (fun _ => False) (splice vs r) (splice vs s) :=
    .abreast (h.splice vs)
  unfold expandAlias
  exact (hsplice _).bind_sure fun _ t u h => parallel_record h _

theorem parallel_aliasOrRule (hus : Item.Silent us) (h : Abreast us r s) (n : Nat) (name : Token) :
    Parallel us Drained (aliasOrRule n name r) (aliasOrRule n name s) := by
  have hrule : Parallel us Drained
      ((do return some (← collect n (atRuleEnd name) []) : Read (Option AtRule)) r)
      ((do return some (← collect n (atRuleEnd name) []) : Read (Option AtRule)) s) := by
    refine ((parallel_values hus n).collect (stops_atRuleEnd name) h).bind (fun rule t u h => ?_)
      fun rule t ht => ht
    exact .pure h _
  have hscopes : s.scopes = r.scopes := by
    obtain ⟨l, _, rfl⟩ := h
    rfl
  have hcheck : s.cursor.checkDelim s.cursor.blankOffset "=" =
        r.cursor.checkDelim r.cursor.blankOffset "=" ∧
      (r.cursor.checkDelim r.cursor.blankOffset "=" = true →
        ∃ v, BothAt us v r.skipped s.skipped) := by
    unfold Cursor.checkDelim
    rcases h.lookahead hus with ⟨v, hfront, hleft, hright⟩ | ⟨hleft, hright⟩
    · rw [hleft, hright]
      exact ⟨rfl, fun _ => ⟨v, hfront⟩⟩
    · have hsilent {o : Option Value} (ho : ∀ v ∈ o, v.isDefinitionSign = false) :
          o.any (·.isDelim "=") = false := by
        cases o with
        | none => rfl
        | some v => exact (Bool.or_eq_false_iff.mp (ho v rfl)).2
      rw [hsilent hleft, hsilent hright]
      exact ⟨rfl, nofun⟩
  unfold aliasOrRule
  split
  · refine .peek (.peek ?_)
    rw [hcheck.1]
    split
    · next hdefines =>
        obtain ⟨v, hfront⟩ := hcheck.2 hdefines
        refine .skipWhitespace ((parallel_next hfront).bind_sure fun _ t u h => ?_)
        refine ((parallel_values hus n).valueList h).bind (fun values t u h => ?_)
          fun values t ht => ht
        refine (parallel_updateScopes h _).bind_sure fun _ t u h => ?_
        refine (parallel_record h _).bind_sure fun _ t u h => ?_
        exact .pure h _
    · refine .look ?_
      rw [hscopes]
      cases r.scopes.findAlias? name.text with
      | none => exact hrule
      | some values =>
          refine (parallel_expandAlias h name values).bind_sure fun _ t u h => ?_
          exact .pure h _
  · exact hrule

theorem parallel_atRule (hus : Item.Silent us) (h : Abreast us r s) (n : Nat) :
    Parallel us Lost (atRule n r) (atRule n s) := by
  have hlost (t : Reader) (ht : t.Drained) : t.Lost := ht.lost
  unfold atRule
  refine (parallel_expects (expects_consume _ rfl) rfl h).bind_sure fun name t u h => ?_
  by_cases hmixin : Text.foldCase name.text = "mixin"
  · rw [if_pos hmixin]
    refine (parallel_defineMixin hus h n).bind (fun _ t u h => ?_) fun _ t ht => hlost t ht
    exact .pure h _
  rw [if_neg hmixin]
  by_cases hinclude : Text.foldCase name.text = "include"
  · rw [if_pos hinclude]
    refine (parallel_includeMixins hus h n name).bind (fun _ t u h => ?_) fun _ t ht => ht
    exact .pure h _
  · rw [if_neg hinclude]
    exact (parallel_aliasOrRule hus h n name).mono hlost

end Read
end Cascade

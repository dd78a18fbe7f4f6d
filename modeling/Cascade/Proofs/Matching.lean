import Cascade.Proofs.FollowingStatements

/-!
# The same outcome

Two readers have the same outcome if both come to the same stop, or to the same result with
readers that are related again.

**Method.**  `Matched R` relates two outcomes, and it follows the bind of computations.  A
statement starts by reading the value in front.  So it has the same outcome for cursors that
are the same behind that value (`Cursor.SameFront`): the place of the value read last and the
ends of bodies before the front are forgotten.

**Results.**
* `matched_styleStatement`, `matched_styleEntries`: a statement, and a style block, for cursors
  with the same front.
-/

namespace Cascade

namespace Cursor

/-- The cursors have the same values left, and reading the front one makes them the same. -/
structure SameFront (c d : Cursor) : Prop where
  rest : d.rest = c.rest
  next : d.next = c.next

theorem SameFront.peek {c d : Cursor} (h : SameFront c d) (n : Nat) :
    d.peek n = c.peek n := by
  rw [peek_eq_getElem?, peek_eq_getElem?, h.rest]

theorem SameFront.check {c d : Cursor} (h : SameFront c d) (n : Nat) (type : TokenType) :
    d.check n type = c.check n type := by
  rw [Cursor.check, Cursor.check, h.peek]

theorem SameFront.checkDelim {c d : Cursor} (h : SameFront c d) (n : Nat) (text : String) :
    d.checkDelim n text = c.checkDelim n text := by
  rw [Cursor.checkDelim, Cursor.checkDelim, h.peek]

/-- The end of a body before the front is passed with the front value. -/
theorem sameFront_marker {c : Cursor} {m : String} {l : List Item} (hitems : c.items = .marker m :: l) :
    SameFront c { c with items := l, expansions := c.expansions.tail } where
  rest := by simp [Cursor.rest, hitems, Item.value?, List.filterMap_cons]
  next := by simp [Cursor.next, hitems, dropMarkers]

/-- The front value has a place of its own, which is that of the value read last behind it. -/
theorem sameFront_last {c : Cursor} {v : Value} (hpeek : c.peek 0 = some v) (p : Position) :
    SameFront c { c with last := p } where
  rest := rfl
  next := by
    rcases Item.blank_or_front c.items with hblank | ⟨lead, w, k, hlead, hitems⟩
    · rw [peek_of_blank_end hblank] at hpeek
      cases hpeek
    · simp [Cursor.next, hitems, Item.dropMarkers_front hlead]

end Cursor

namespace Reader

/-- The reader behind an inclusion of a mixin, whose body is in front. -/
def including (r : Reader) (m : String) (body : List Value) : Reader :=
  { r with
    cursor := r.cursor.spliceExpansion m body
    events := .mixinIncluded m (r.cursor.depth + 1) :: r.events }

/-- The reader with another cursor. -/
def withCursor (r : Reader) (c : Cursor) : Reader :=
  { r with cursor := c }

/-- The reader with another place of the value read last. -/
def lastAt (r : Reader) (p : Position) : Reader :=
  { r with cursor := { r.cursor with last := p } }

end Reader

namespace Read

variable {α β : Type} {r s : Reader} {v : Value} {c : Cursor}

theorem expand_single (m : String) (body : List Value) (r : Reader) :
    expand [(m, body)] r = .ok () (r.including m body) :=
  rfl

/-! ## The same outcome -/

/-- Both outcomes are the same stop, or the same result with readers that it relates. -/
inductive Matched (R : α → Reader → Reader → Prop) :
    EStateM.Result Stop Reader α → EStateM.Result Stop Reader α → Prop
  | stopped {e : Stop} {t u : Reader} : Matched R (.error e t) (.error e u)
  | result {a : α} {t u : Reader} : R a t u → Matched R (.ok a t) (.ok a u)

namespace Matched

variable {R : α → Reader → Reader → Prop} {R' : β → Reader → Reader → Prop} {x y : Read α}
  {f g : α → Read β} {o o' q q' : EStateM.Result Stop Reader α}

theorem of_eq (h : x r = y s) :
    Matched (fun _ => Eq) (x r) (y s) := by
  rw [h]
  cases y s with
  | ok a t => exact .result rfl
  | error e t => exact .stopped

theorem bind (h : Matched R (x r) (y s)) (hf : ∀ a t u, R a t u → Matched R' (f a t) (g a u)) :
    Matched R' ((x >>= f) r) ((y >>= g) s) := by
  generalize hx : x r = o at h
  generalize hy : y s = o' at h
  cases h with
  | stopped =>
      rw [bind_error hx, bind_error hy]
      exact .stopped
  | @result a t u hR =>
      rw [bind_ok hx, bind_ok hy]
      exact hf a t u hR

theorem mono {R' : α → Reader → Reader → Prop} (h : Matched R o o')
    (hR : ∀ a t u, R a t u → R' a t u) :
    Matched R' o o' := by
  cases h with
  | stopped => exact .stopped
  | result h => exact .result (hR _ _ _ h)

theorem trans {R' : α → Reader → Reader → Prop} (h : Matched R o o') (h' : Matched R' o' q) :
    Matched (fun _ _ _ => True) o q := by
  cases h with
  | stopped =>
      cases h' with
      | stopped => exact .stopped
  | result =>
      cases h' with
      | result => exact .result trivial

/-- On both sides an outcome may be taken from another computation that has the same one. -/
theorem congr (ho : Matched (fun _ => Eq) o o') (hq : Matched (fun _ => Eq) q q')
    (h : Matched R o' q') :
    Matched R o q := by
  cases ho with
  | stopped =>
      cases h with
      | stopped =>
          cases hq with
          | stopped => exact .stopped
  | result ho =>
      cases ho
      cases h with
      | result h =>
          cases hq with
          | result hq =>
              cases hq
              exact .result h

theorem peek {γ : Type} {a : Cursor → γ} {k : γ → Read α}
    (h : Matched R (k (a r.cursor) r) (k (a s.cursor) s)) :
    Matched R ((Read.peek a >>= k) r) ((Read.peek a >>= k) s) :=
  h

theorem look {γ : Type} {a : Reader → γ} {k : γ → Read α} (h : Matched R (k (a r) r) (k (a s) s)) :
    Matched R ((Read.look a >>= k) r) ((Read.look a >>= k) s) :=
  h

/-- From the same reader on all is the same. -/
theorem bind_eq (h : Matched (fun _ => Eq) (x r) (y s)) :
    Matched (fun _ => Eq) ((x >>= f) r) ((y >>= f) s) := by
  refine h.bind ?_
  rintro a t _ rfl
  exact .of_eq rfl

end Matched

/-! ## Cursors with the same front -/

section Front

variable (hc : r.cursor.SameFront c) (hpeek : r.cursor.peek 0 = some v)
include hc

theorem checkDelim_withCursor (n : Nat) (text : String) :
    (r.withCursor c).cursor.checkDelim n text = r.cursor.checkDelim n text :=
  hc.checkDelim n text

theorem check_withCursor (n : Nat) (type : TokenType) :
    (r.withCursor c).cursor.check n type = r.cursor.check n type :=
  hc.check n type

include hpeek

theorem next_withCursor :
    next (r.withCursor c) = next r := by
  have hpeek' : c.peek 0 = some v := (hc.peek 0).trans hpeek
  rw [next_of_peek hpeek, next_of_peek (r := r.withCursor c) hpeek']
  simp [Reader.withCursor, hc.next]

theorem scan_withCursor {x : Scan Token} {test : Value → Bool} (hx : Expects x test)
    (hv : test v = true) :
    scan x (r.withCursor c) = scan x r := by
  obtain ⟨t, rfl⟩ := hx.token hv
  have hpeek' : c.peek 0 = some (.token t) := (hc.peek 0).trans hpeek
  rw [hx.accept hpeek hv, hx.accept (r := r.withCursor c) hpeek' hv]
  simp [Reader.withCursor, hc.next]

theorem matched_variableUse (hv : v.isDelim "$" = true) (n : Nat) :
    Matched (fun _ => Eq) (variableUse n r) (variableUse n (r.withCursor c)) := by
  cases n with
  | zero =>
      rw [variableUse_zero]
      exact .stopped
  | succ n =>
      rw [variableUse_succ]
      exact .bind_eq (.of_eq (scan_withCursor hc hpeek (expects_consumeDelim _ _) hv).symm)

theorem matched_value (n : Nat) :
    Matched (fun _ => Eq) (value n r) (value n (r.withCursor c)) := by
  have hpeek' : (r.withCursor c).cursor.peek 0 = some v := (hc.peek 0).trans hpeek
  have hpassed (t : Reader) :
      t.withCursor c.next.2 = t.withCursor r.cursor.next.2 := by rw [hc.next]
  cases n with
  | zero =>
      rw [value_zero]
      exact .stopped
  | succ n =>
      have hnext : Matched (fun _ => Eq) (next r) (next (r.withCursor c)) :=
        .of_eq (next_withCursor hc hpeek).symm
      have hpass : Matched (fun _ => Eq) ((do remember v; next : Read _) r)
          ((do remember v; next : Read _) (r.withCursor c)) := by
        refine .of_eq ?_
        rw [pass_of_peek hpeek, pass_of_peek hpeek']
        exact congrArg _ (hpassed { r with passed := v :: r.passed }).symm
      rw [value]
      refine .peek ?_
      simp only [hpeek, hpeek']
      cases v with
      | reference dollar name => exact hnext.bind_eq
      | block opener contents closer => exact hpass
      | call name args commas closer => exact hpass
      | token t =>
          dsimp only
          split
          · next hopener =>
              refine Matched.bind_eq ?_
              cases n with
              | zero =>
                  rw [block_zero]
                  exact .stopped
              | succ n =>
                  obtain ⟨closer, hcloser⟩ := Option.isSome_iff_exists.mp hopener
                  rw [block, bind_ok (scan_opener hpeek hcloser), bind_ok (scan_opener hpeek' hcloser)]
                  exact .of_eq (congrArg _ (hpassed r).symm)
          split
          · next hfunction =>
              refine Matched.bind_eq ?_
              cases n with
              | zero =>
                  rw [call_zero]
                  exact .stopped
              | succ n =>
                  rw [call, bind_ok (scan_function _ hpeek hfunction),
                    bind_ok (scan_function _ hpeek' hfunction)]
                  exact .of_eq (congrArg _ (hpassed r).symm)
          refine .peek ?_
          rw [checkDelim_withCursor hc, check_withCursor hc]
          split
          · next hstart =>
              have hdollar : (Value.token t).isDelim "$" = true := by
                simpa [Cursor.checkDelim, hpeek] using (Bool.and_eq_true_iff.mp hstart).1
              exact (matched_variableUse hc hpeek hdollar n).bind_eq
          · exact hnext

theorem matched_skipStatement (n : Nat) :
    Matched (fun _ => Eq) (skipStatement n false r) (skipStatement n false (r.withCursor c)) := by
  have hpeek' : (r.withCursor c).cursor.peek 0 = some v := (hc.peek 0).trans hpeek
  cases n with
  | zero => exact .stopped
  | succ n =>
      rw [skipStatement]
      refine .peek ?_
      simp only [hpeek, hpeek']
      refine .peek ?_
      simp only [Bool.false_and, Bool.false_eq_true, if_false]
      split
      · exact Matched.bind_eq (.of_eq (next_withCursor hc hpeek).symm)
      · exact (matched_value hc hpeek n).bind_eq

theorem matched_qualifiedRule {t : Token} (hv : v = .token t) (ht : t.isDelim "&" = true) (n : Nat) :
    Matched (fun _ => Eq) (qualifiedRule n r) (qualifiedRule n (r.withCursor c)) := by
  have hpeek' : (r.withCursor c).cursor.peek 0 = some v := (hc.peek 0).trans hpeek
  have hmore {s : Reader} (hpeek : s.cursor.peek 0 = some v) : qualifiedEnd [] s = .ok none s := by
    unfold qualifiedEnd
    rw [bind_ok (peek_run _ s), hpeek, hv]
    simp only [(Token.isDelim_iff.mp ht).1]
    rfl
  cases n with
  | zero =>
      rw [qualifiedRule, collect_zero]
      exact .stopped
  | succ n =>
      rw [qualifiedRule, collect, bind_ok (hmore hpeek), bind_ok (hmore hpeek')]
      exact (matched_value hc hpeek n).bind_eq

/-- A statement starts by reading its front value. -/
theorem matched_styleStatement (n : Nat) :
    Matched (fun _ => Eq) (styleStatement n v r) (styleStatement n v (r.withCursor c)) := by
  cases n with
  | zero => exact .stopped
  | succ n =>
      cases v with
      | token t =>
          rw [styleStatement]
          split
          · exact Matched.bind_eq (.of_eq (next_withCursor hc hpeek).symm)
          split
          · next hkeyword =>
              have hv : (Value.token t).hasType .atKeyword = true := by simp [Value.hasType, hkeyword]
              refine Matched.bind_eq ?_
              unfold atRule
              exact .bind_eq (.of_eq (scan_withCursor hc hpeek (expects_consume _ rfl) hv).symm)
          refine .peek ?_
          rw [checkDelim_withCursor hc, check_withCursor hc]
          split
          · next hstart =>
              have hdollar : (Value.token t).isDelim "$" = true := by
                simpa [Cursor.checkDelim, hpeek] using (Bool.and_eq_true_iff.mp hstart).1
              exact (matched_variableUse hc hpeek hdollar n).bind_eq
          split
          · next hident =>
              have hv : (Value.token t).hasType .ident = true := by simp [Value.hasType, hident]
              refine Matched.bind_eq ?_
              unfold declaration
              exact .bind_eq (.of_eq (scan_withCursor hc hpeek (expects_consume _ rfl) hv).symm)
          split
          · next hnesting => exact (matched_qualifiedRule hc hpeek rfl hnesting n).bind_eq
          · exact (matched_skipStatement hc hpeek n).bind_eq
      | _ =>
          rw [styleStatement]
          · exact (matched_skipStatement hc hpeek n).bind_eq
          · rintro _ ⟨⟩

/-- The entries are those of another reader with the same front. -/
theorem matched_styleEntries (n : Nat) (read : List Entry) :
    Matched (fun _ => Eq) (styleEntries n read r) (styleEntries n read (r.withCursor c)) := by
  have hpeek' : (r.withCursor c).cursor.peek 0 = some v := (hc.peek 0).trans hpeek
  cases n with
  | zero => exact .stopped
  | succ n =>
      rw [styleEntries]
      refine .peek ?_
      rw [hpeek, hpeek']
      exact (matched_styleStatement hc hpeek n).bind_eq

end Front

/-- The entries do not depend on the place of the value read before them. -/
theorem matched_styleEntries_lastAt (n : Nat) (read : List Entry) (r : Reader) (p : Position) :
    Matched (fun _ _ _ => True) (styleEntries n read r) (styleEntries n read (r.lastAt p)) := by
  cases hpeek : r.cursor.peek 0 with
  | some v =>
      have hsame := matched_styleEntries (Cursor.sameFront_last hpeek p) hpeek n read
      exact hsame.mono fun _ _ _ _ => trivial
  | none =>
      have hpeek' : (r.lastAt p).cursor.peek 0 = none := hpeek
      cases n with
      | zero => exact .stopped
      | succ n =>
          rw [styleEntries]
          refine .peek ?_
          rw [hpeek, hpeek']
          exact .result trivial

end Read
end Cascade

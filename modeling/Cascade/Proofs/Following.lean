import Cascade.Proofs.StatementSimulation
import Mathlib.Data.List.TakeWhile

/-!
# What follows a value

Two readers have the same items before them up to a point.  There the first one finds
a sentinel, a sign that no statement waits for, and then the end; the second one finds
any other items.  Values that the first reader reads without touching the sentinel are
read by the second one too, with the same result.

**Method.**  `Abreast us r s` relates the readers: `s` has the items `us` where `r` has
the sentinel.  `Parallel us P o o'` compares the outcomes of a computation on both: where
the first one is a result, so is the second one and the readers are abreast again,
or the first reader is lost, as `P` says.  A reader that has come to the sentinel is not
abreast for long.  What looks at the front value is then told the sentinel, and every
computation that goes on reads it, so that nothing is left (`Lands`).

One thing looks further than the front: a name behind a dollar sign, or an at-keyword,
looks past whitespace for the sign of a definition.  So `us` must not start with such
a sign (`Silent`).

**Results.**
* `Abreast.lookahead`: what both readers see behind whitespace.
* `lands_values`: from the sentinel on, reading values ends with nothing left.
* `parallel_values`: values, blocks, calls, variables and lists of values.
-/

namespace Cascade

/-- A delimiter that no statement starts with, ends at or looks for. -/
def sentinel : Token :=
  ⟨.delim, "?", .none, .none⟩

/-- The value makes a definition of the name before it. -/
def Value.isDefinitionSign (v : Value) : Bool :=
  v.hasType .colon || v.isDelim "="

theorem Cursor.peek_next (c : Cursor) (n : Nat) :
    c.next.2.peek n = c.peek (n + 1) := by
  rw [Cursor.peek_eq_getElem?, Cursor.peek_eq_getElem?, Cursor.rest_next, List.getElem?_tail]

namespace Item

/-- The items without a value, or up to their first value and behind it. -/
theorem blank_or_front (l : List Item) :
    Blank l ∨ ∃ lead v k, Blank lead ∧ l = lead ++ .value v :: k := by
  induction l with
  | nil => exact .inl blank_nil
  | cons item l ih =>
      cases item with
      | value v => exact .inr ⟨[], v, l, blank_nil, rfl⟩
      | marker m =>
          rcases ih with hl | ⟨lead, v, k, hlead, rfl⟩
          · exact .inl ((blank_marker m).mpr hl)
          · exact .inr ⟨.marker m :: lead, v, k, (blank_marker m).mpr hlead, rfl⟩

theorem dropMarkers_front {lead : List Item} (h : Blank lead) (v : Value) (rest : List Item)
    (names : List String) :
    Cursor.dropMarkers (lead ++ .value v :: rest) names =
      (.value v :: rest, names.drop lead.length) := by
  induction lead generalizing names with
  | nil => rfl
  | cons item lead ih =>
      cases item with
      | value u => simp [Blank, value?] at h
      | marker m =>
          have hdrop := ih ((blank_marker m).mp h) names.tail
          simpa [Cursor.dropMarkers, List.drop_tail] using hdrop

/-- All values of the items are whitespace. -/
def White (l : List Item) : Prop :=
  ∀ v ∈ l.filterMap value?, v.isWhitespace = true

/-- The first value of the items that is not whitespace, if any, is no sign of a definition. -/
def Silent (us : List Item) : Prop :=
  ∀ v ∈ ((us.filterMap value?).dropWhile Value.isWhitespace).head?, v.isDefinitionSign = false

theorem white_iff {l : List Item} :
    White l ↔ (l.filterMap value?).dropWhile Value.isWhitespace = [] :=
  List.dropWhile_eq_nil_iff.symm

theorem first?_append {l : List Item} (h : ¬ Blank l) (tail : List Item) :
    first? (l ++ tail) = first? l := by
  rcases blank_or_front l with hl | ⟨lead, v, k, hlead, rfl⟩
  · exact (h hl).elim
  · rw [List.append_assoc, List.cons_append, first?_of_blank hlead, first?_of_blank hlead]

theorem White.of_blank {l : List Item} (h : Blank l) :
    White l := by
  have hl : l.filterMap value? = [] := h
  simp [White, hl]

/-- Nothing is read where no whitespace is at the front. -/
theorem skipBlanks_of_first {l : List Item} (h : (first? l).any Value.isWhitespace = false)
    (names : List String) (last : Position) :
    Cursor.skipBlanks l names last = (l, names, last) := by
  cases l with
  | nil => rfl
  | cons item l =>
      cases item with
      | value v =>
          have hv : v.isWhitespace = false := h
          simp [Cursor.skipBlanks, hv]
      | marker m =>
          have hl : (first? l).any Value.isWhitespace = false := h
          simp [Cursor.skipBlanks, hl]

/-- Whitespace at the front is read up to another value, whatever follows that. -/
theorem skipBlanks_of_not_white {l : List Item} (h : ¬ White l) (names : List String)
    (last : Position) :
    ∃ k names' last', ∀ tail,
      Cursor.skipBlanks (l ++ tail) names last = (k ++ tail, names', last') := by
  induction l generalizing names last with
  | nil => exact (h (.of_blank blank_nil)).elim
  | cons item l ih =>
      cases item with
      | value v =>
          by_cases hv : v.isWhitespace = true
          · have hl : ¬ White l := by simpa [White, value?, hv] using h
            obtain ⟨k, names', last', hskip⟩ := ih hl names v.start
            exact ⟨k, names', last', fun tail => by simp [Cursor.skipBlanks, hv, hskip]⟩
          · exact ⟨.value v :: l, names, last, fun tail => by simp [Cursor.skipBlanks, hv]⟩
      | marker m =>
          have hl : ¬ White l := by simpa [White, value?, List.filterMap_cons] using h
          have hfirst := first?_append fun hblank => hl (.of_blank hblank)
          by_cases hblank : (first? l).any Value.isWhitespace = true
          · obtain ⟨k, names', last', hskip⟩ := ih hl names.tail last
            exact ⟨k, names', last', fun tail => by simp [Cursor.skipBlanks, hfirst, hblank, hskip]⟩
          · exact ⟨.marker m :: l, names, last,
              fun tail => by simp [Cursor.skipBlanks, hfirst, hblank]⟩

/-- Where all is whitespace, the sentinel behind it is come to. -/
theorem skipBlanks_of_white {l : List Item} (h : White l) (names : List String) (last : Position) :
    ∃ lead, Blank lead ∧
      (Cursor.skipBlanks (l ++ [.value (.token sentinel)]) names last).1 =
        lead ++ [.value (.token sentinel)] := by
  induction l generalizing names last with
  | nil => exact ⟨[], blank_nil, rfl⟩
  | cons item l ih =>
      cases item with
      | value v =>
          have hv : v.isWhitespace = true := h v (by simp [value?])
          have hl : White l := fun u hu => h u (by simp [value?, hu])
          obtain ⟨lead, hlead, hskip⟩ := ih hl names v.start
          exact ⟨lead, hlead, by simpa [Cursor.skipBlanks, hv] using hskip⟩
      | marker m =>
          have hl : White l := by simpa [White, value?, List.filterMap_cons] using h
          rcases blank_or_front l with hblank | ⟨lead, v, k, hlead, rfl⟩
          · refine ⟨.marker m :: l, (blank_marker m).mpr hblank, ?_⟩
            have hfirst : first? (l ++ [.value (.token sentinel)]) = some (.token sentinel) :=
              first?_of_blank hblank
            have hsign : (Value.token sentinel).isWhitespace = false := rfl
            simp [Cursor.skipBlanks, hfirst, hsign]
          · have hv : v.isWhitespace = true := hl v (by simp [value?])
            obtain ⟨lead', hlead', hskip⟩ := ih hl names.tail last
            refine ⟨lead', hlead', ?_⟩
            have hfirst : first? (lead ++ .value v :: k ++ [.value (.token sentinel)]) = some v := by
              rw [List.append_assoc, List.cons_append, first?_of_blank hlead]
            rw [List.cons_append, Cursor.skipBlanks, hfirst]
            simpa [hv] using hskip

end Item

namespace Reader

variable {us : List Item} {r s : Reader} {v : Value}

/-- The reader with other items left to read. -/
def withItems (r : Reader) (items : List Item) : Reader :=
  { r with cursor := { r.cursor with items := items } }

/-- Nothing is left to read. -/
def Drained (r : Reader) : Prop :=
  r.cursor.items = []

/-- The sentinel is the only value left, if there is any. -/
def Spent (r : Reader) : Prop :=
  r.Drained ∨ ∃ lead, Item.Blank lead ∧ r.cursor.items = lead ++ [.value (.token sentinel)]

/-- The sentinel is no longer the last item. -/
def Lost (r : Reader) : Prop :=
  r.cursor.items.getLast? ≠ some (.value (.token sentinel))

/-- The second reader has other items in place of the sentinel, and agrees with the first one in all
else. -/
def Abreast (us : List Item) (r s : Reader) : Prop :=
  ∃ l, r.cursor.items = l ++ [.value (.token sentinel)] ∧ s = r.withItems (l ++ us)

/-- Both readers are at the value, and behind it they are abreast. -/
def BothAt (us : List Item) (v : Value) (r s : Reader) : Prop :=
  ∃ lead k, Item.Blank lead ∧
    r.cursor.items = lead ++ .value v :: (k ++ [.value (.token sentinel)]) ∧
    s = r.withItems (lead ++ .value v :: (k ++ us))

theorem Drained.lost (h : r.Drained) :
    r.Lost := by
  unfold Lost
  rw [show r.cursor.items = [] from h]
  exact nofun

theorem Drained.peek (h : r.Drained) :
    r.cursor.peek 0 = none := by
  refine Cursor.peek_of_blank_end ?_
  rw [show r.cursor.items = [] from h]
  exact Item.blank_nil

/-- At the end, or at the sentinel. -/
theorem Spent.cases (h : r.Spent) :
    r.Drained ∨ r.cursor.peek 0 = some (.token sentinel) := by
  rcases h with h | ⟨lead, hlead, hitems⟩
  · exact .inl h
  · exact .inr (Cursor.peek_of_blank hlead hitems)

/-- Nothing is seen but the sentinel. -/
theorem Spent.peek (h : r.Spent) :
    ∀ v ∈ r.cursor.peek 0, v = .token sentinel := by
  rcases h.cases with h | h
  · simp [h.peek]
  · simp [h]

theorem Spent.check (h : r.Spent) {type : TokenType} (htype : type ≠ .delim) :
    r.cursor.check 0 type = false := by
  unfold Cursor.check
  rcases h.cases with hdrained | hpeek
  · rw [hdrained.peek]
    rfl
  · rw [hpeek]
    simpa [Value.hasType, sentinel] using htype.symm

theorem Spent.checkDelim (h : r.Spent) {text : String} (htext : text ≠ "?") :
    r.cursor.checkDelim 0 text = false := by
  unfold Cursor.checkDelim
  rcases h.cases with hdrained | hpeek
  · rw [hdrained.peek]
    rfl
  · rw [hpeek]
    simpa [Value.isDelim, Token.isDelim, sentinel] using htext.symm

/-- The readers are both at a value, or the first one is at the sentinel. -/
theorem Abreast.front (h : Abreast us r s) :
    r.Spent ∨ ∃ v, BothAt us v r s := by
  obtain ⟨l, hitems, rfl⟩ := h
  rcases Item.blank_or_front l with hl | ⟨lead, v, k, hlead, rfl⟩
  · exact .inl (.inr ⟨l, hl, hitems⟩)
  · refine .inr ⟨v, lead, k, hlead, ?_, ?_⟩
    · rw [hitems]
      simp
    · simp

/-- A change that does not concern what is left to read. -/
theorem Abreast.map (h : Abreast us r s) (f : Reader → Reader)
    (hcursor : ∀ t : Reader, (f t).cursor = t.cursor)
    (hitems : ∀ (t : Reader) (items : List Item), f (t.withItems items) = (f t).withItems items) :
    Abreast us (f r) (f s) := by
  obtain ⟨l, hl, rfl⟩ := h
  refine ⟨l, ?_, hitems r _⟩
  rw [hcursor]
  exact hl

theorem Abreast.splice (h : Abreast us r s) (vs : List Value) :
    Abreast us { r with cursor := r.cursor.splice vs } { s with cursor := s.cursor.splice vs } := by
  obtain ⟨l, hitems, rfl⟩ := h
  refine ⟨vs.map .value ++ l, ?_, ?_⟩
  · simp [Cursor.splice, hitems]
  · simp [Cursor.splice, withItems]

theorem Abreast.spliceExpansion (h : Abreast us r s) (mixin : String) (vs : List Value) :
    Abreast us { r with cursor := r.cursor.spliceExpansion mixin vs }
      { s with cursor := s.cursor.spliceExpansion mixin vs } := by
  obtain ⟨l, hitems, rfl⟩ := h
  refine ⟨vs.map .value ++ .marker mixin :: l, ?_, ?_⟩
  · simp [Cursor.spliceExpansion, hitems]
  · simp [Cursor.spliceExpansion, withItems]

namespace BothAt

theorem abreast (h : BothAt us v r s) :
    Abreast us r s := by
  obtain ⟨lead, k, _, hitems, rfl⟩ := h
  refine ⟨lead ++ .value v :: k, ?_, ?_⟩
  · rw [hitems]
    simp
  · simp

theorem left (h : BothAt us v r s) :
    r.cursor.peek 0 = some v := by
  obtain ⟨lead, k, hlead, hitems, _⟩ := h
  exact Cursor.peek_of_blank hlead hitems

theorem right (h : BothAt us v r s) :
    s.cursor.peek 0 = some v := by
  obtain ⟨lead, k, hlead, _, rfl⟩ := h
  exact Cursor.peek_of_blank hlead rfl

theorem check (h : BothAt us v r s) (type : TokenType) :
    s.cursor.check 0 type = r.cursor.check 0 type := by
  unfold Cursor.check
  rw [h.left, h.right]

theorem checkDelim (h : BothAt us v r s) (text : String) :
    s.cursor.checkDelim 0 text = r.cursor.checkDelim 0 text := by
  unfold Cursor.checkDelim
  rw [h.left, h.right]

/-- Behind the value the readers are abreast. -/
theorem passed (h : BothAt us v r s) :
    Abreast us { r with cursor := r.cursor.next.2 } { s with cursor := s.cursor.next.2 } := by
  obtain ⟨lead, k, hlead, hitems, rfl⟩ := h
  refine ⟨k, Cursor.items_next_of_blank hlead hitems, ?_⟩
  simp only [Cursor.next, hitems, withItems, Item.dropMarkers_front hlead]

end BothAt

/-- What the first reader sees before the sentinel, both see. -/
theorem Abreast.bothAt (h : Abreast us r s) (hpeek : r.cursor.peek 0 = some v)
    (hv : v ≠ .token sentinel) :
    BothAt us v r s := by
  rcases h.front with hspent | ⟨w, hfront⟩
  · exact (hv (hspent.peek v hpeek)).elim
  · have hw : w = v := Option.some.inj (hfront.left.symm.trans hpeek)
    exact hw ▸ hfront

/-- The reader behind the whitespace at the front. -/
def skipped (r : Reader) : Reader :=
  { r with cursor := r.cursor.skipWhitespace }

/-- Behind the whitespace both readers are at a value, or the first one is at the sentinel and the
second one at the first value behind it that is not whitespace. -/
theorem Abreast.skipped (h : Abreast us r s) :
    (∃ v, BothAt us v r.skipped s.skipped) ∨
      (r.skipped.Spent ∧ s.skipped.cursor.peek 0 =
        ((us.filterMap Item.value?).dropWhile Value.isWhitespace).head?) := by
  obtain ⟨l, hitems, rfl⟩ := h
  by_cases hl : Item.White l
  · refine .inr ⟨.inr ?_, ?_⟩
    · obtain ⟨lead, hlead, hskip⟩ := Item.skipBlanks_of_white hl r.cursor.expansions r.cursor.last
      refine ⟨lead, hlead, ?_⟩
      rw [← hskip, ← hitems]
      rfl
    · change (r.withItems (l ++ us)).cursor.skipWhitespace.peek 0 = _
      rw [Cursor.peek_eq_getElem?, Cursor.rest_skipWhitespace, ← List.head?_eq_getElem?]
      change (((l ++ us).filterMap Item.value?).dropWhile Value.isWhitespace).head? = _
      rw [List.filterMap_append, List.dropWhile_append_of_pos hl]
  · obtain ⟨k, names, last, hskip⟩ :=
      Item.skipBlanks_of_not_white hl r.cursor.expansions r.cursor.last
    have hk : ¬ Item.Blank k := by
      have hvalues := Cursor.filterMap_skipBlanks (l ++ []) r.cursor.expansions r.cursor.last
      rw [hskip [], List.append_nil, List.append_nil] at hvalues
      intro hblank
      exact hl (Item.white_iff.mpr (hvalues.symm.trans hblank))
    rcases Item.blank_or_front k with hblank | ⟨lead, v, k, hlead, rfl⟩
    · exact (hk hblank).elim
    · refine .inl ⟨v, lead, k, hlead, ?_, ?_⟩
      · change (Cursor.skipBlanks r.cursor.items r.cursor.expansions r.cursor.last).1 = _
        rw [hitems, hskip]
        simp
      · simp [Reader.skipped, withItems, Cursor.skipWhitespace, hitems, hskip]

/-- Looking past whitespace, both readers see the same value, or neither sees the sign of a
definition. -/
theorem Abreast.lookahead (h : Abreast us r s) (hus : Item.Silent us) :
    (∃ v, BothAt us v r.skipped s.skipped ∧ r.cursor.peek r.cursor.blankOffset = some v ∧
      s.cursor.peek s.cursor.blankOffset = some v) ∨
    ((∀ v ∈ r.cursor.peek r.cursor.blankOffset, v.isDefinitionSign = false) ∧
      ∀ v ∈ s.cursor.peek s.cursor.blankOffset, v.isDefinitionSign = false) := by
  rw [Cursor.peek_blankOffset, Cursor.peek_blankOffset]
  rcases h.skipped with ⟨v, hfront⟩ | ⟨hspent, hbehind⟩
  · exact .inl ⟨v, hfront, hfront.left, hfront.right⟩
  · refine .inr ⟨fun v hv => ?_, fun v hv => ?_⟩
    · rw [hspent.peek v hv]
      rfl
    · refine hus v ?_
      rw [← hbehind]
      exact hv

/-- At the sentinel there is no whitespace. -/
theorem Spent.skipped (h : r.Spent) :
    r.skipped = r := by
  have hfirst : (Item.first? r.cursor.items).any Value.isWhitespace = false := by
    rw [Cursor.first?_eq_head?, List.head?_eq_getElem?, ← Cursor.peek?_eq_getElem?]
    change (r.cursor.peek 0).any Value.isWhitespace = false
    rcases h.cases with hdrained | hpeek
    · rw [hdrained.peek]
      rfl
    · rw [hpeek]
      rfl
  simp [Reader.skipped, Cursor.skipWhitespace, Item.skipBlanks_of_first hfirst]

end Reader

namespace Read

open Reader (Abreast BothAt Drained Spent Lost)

variable {α β : Type} {us : List Item} {P Q : Reader → Prop} {r s t u : Reader} {v : Value}
  {x y : Read α} {f g : α → Read β}

/-! ## Outcomes of one reader -/

/-- A result is given only where the reader is as told. -/
def Lands (P : Reader → Prop) : EStateM.Result Stop Reader α → Prop
  | .ok _ s => P s
  | .error _ _ => True

namespace Lands

theorem mono {o : EStateM.Result Stop Reader α} (h : Lands P o) (hQ : ∀ s, P s → Q s) :
    Lands Q o := by
  cases o with
  | ok a s => exact hQ s h
  | error e s => trivial

theorem bind (hx : Lands P (x r)) (hf : ∀ a s, P s → Lands Q (f a s)) :
    Lands Q ((x >>= f) r) := by
  cases hrun : x r with
  | ok a s =>
      rw [bind_ok hrun]
      rw [hrun] at hx
      exact hf a s hx
  | error e s =>
      rw [bind_error hrun]
      trivial

end Lands

theorem Lands.peek {γ : Type} {f : Cursor → γ} {k : γ → Read α} (h : Lands P (k (f r.cursor) r)) :
    Lands P ((Read.peek f >>= k) r) :=
  h

theorem Lands.look {γ : Type} {f : Reader → γ} {k : γ → Read α} (h : Lands P (k (f r) r)) :
    Lands P ((Read.look f >>= k) r) :=
  h

theorem Lands.skip {k : Unit → Read α} (h : r.Spent) (hk : Lands P (k () r)) :
    Lands P ((skipWhitespace >>= k) r) := by
  change Lands P (k () r.skipped)
  rw [h.skipped]
  exact hk

/-- The sentinel is read as any other value. -/
theorem lands_next (h : r.Spent) :
    Lands Drained (next r) := by
  change r.cursor.next.2.items = []
  rcases h with h | ⟨lead, hlead, hitems⟩
  · exact (Cursor.items_next_of_end h.peek).2
  · exact Cursor.items_next_of_blank hlead hitems

/-- A token that is asked for is not found at the sentinel. -/
theorem lands_expects {x : Scan Token} {test : Value → Bool} (hx : Expects x test)
    (hsign : test (.token sentinel) = false) (h : r.Spent) :
    Lands (fun _ => False) (scan x r) := by
  have hfront : ∀ v ∈ r.cursor.peek 0, test v = false := by
    intro v hv
    rw [h.peek v hv]
    exact hsign
  obtain ⟨d, hrun, _⟩ := hx.refuse hfront
  rw [hrun]
  trivial

/-! ## Outcomes of both readers -/

/-- The outcomes of a computation on two readers that were abreast.  Where the first one is a result
and its reader is not lost, the second one is the same result. -/
inductive Parallel (us : List Item) (P : Reader → Prop) :
    EStateM.Result Stop Reader α → EStateM.Result Stop Reader α → Prop
  | stopped {e : Stop} {t : Reader} {o : EStateM.Result Stop Reader α} :
      Parallel us P (.error e t) o
  | lost {a : α} {t : Reader} {o : EStateM.Result Stop Reader α} : P t → Parallel us P (.ok a t) o
  | abreast {a : α} {t u : Reader} : Abreast us t u → Parallel us P (.ok a t) (.ok a u)

namespace Parallel

theorem of_lands {o o' : EStateM.Result Stop Reader α} (h : Lands P o) :
    Parallel us P o o' := by
  cases o with
  | ok a s => exact .lost h
  | error e s => exact .stopped

theorem mono {o o' : EStateM.Result Stop Reader α} (h : Parallel us P o o')
    (hQ : ∀ s, P s → Q s) :
    Parallel us Q o o' := by
  cases h with
  | stopped => exact .stopped
  | lost hP => exact .lost (hQ _ hP)
  | abreast h => exact .abreast h

theorem bind (h : Parallel us P (x r) (y s))
    (hf : ∀ a t u, Abreast us t u → Parallel us Q (f a t) (g a u))
    (hlost : ∀ a t, P t → Lands Q (f a t)) :
    Parallel us Q ((x >>= f) r) ((y >>= g) s) := by
  cases hx : x r with
  | error e t =>
      rw [bind_error hx]
      exact .stopped
  | ok a t =>
      rw [bind_ok hx]
      rw [hx] at h
      cases hy : y s with
      | error e u =>
          rw [hy] at h
          cases h with
          | lost hP => exact .of_lands (hlost a t hP)
      | ok b u =>
          rw [bind_ok hy]
          rw [hy] at h
          cases h with
          | lost hP => exact .of_lands (hlost a t hP)
          | abreast habreast => exact hf a t u habreast

/-- A computation after which the first reader is never lost. -/
theorem bind_sure (h : Parallel us (fun _ => False) (x r) (y s))
    (hf : ∀ a t u, Abreast us t u → Parallel us Q (f a t) (g a u)) :
    Parallel us Q ((x >>= f) r) ((y >>= g) s) :=
  h.bind hf fun _ _ hP => hP.elim

theorem pure (h : Abreast us r s) (a : α) :
    Parallel us P ((Pure.pure a : Read α) r) ((Pure.pure a : Read α) s) :=
  .abreast h

theorem peek {γ : Type} {f f' : Cursor → γ} {k k' : γ → Read α}
    (h : Parallel us P (k (f r.cursor) r) (k' (f' s.cursor) s)) :
    Parallel us P ((Read.peek f >>= k) r) ((Read.peek f' >>= k') s) :=
  h

theorem skipWhitespace {k : Unit → Read α} (h : Parallel us P (k () r.skipped) (k () s.skipped)) :
    Parallel us P ((Read.skipWhitespace >>= k) r) ((Read.skipWhitespace >>= k) s) :=
  h

/-- Behind whitespace both readers are at a value, or the first one is spent. -/
theorem skip {k k' : Unit → Read α} (h : Abreast us r s)
    (hboth : ∀ v t u, BothAt us v t u → Parallel us P (k () t) (k' () u))
    (hspent : ∀ t : Reader, t.Spent → Lands P ((Read.skipWhitespace >>= k) t)) :
    Parallel us P ((Read.skipWhitespace >>= k) r) ((Read.skipWhitespace >>= k') s) := by
  rcases h.skipped with ⟨v, hfront⟩ | ⟨hr, _⟩
  · exact hboth v _ _ hfront
  · have hlands := hspent r.skipped hr
    change Lands P (k () r.skipped.skipped) at hlands
    rw [hr.skipped] at hlands
    exact .of_lands hlands

theorem look {γ : Type} {f : Reader → γ} {k : γ → Read α} (h : Parallel us P (k (f r) r) (k (f s) s)) :
    Parallel us P ((Read.look f >>= k) r) ((Read.look f >>= k) s) :=
  h

theorem andFinally (h : Parallel us Drained (x r) (y s)) (f : Reader → Reader)
    (hcursor : ∀ t : Reader, (f t).cursor = t.cursor)
    (hitems : ∀ (t : Reader) (items : List Item), f (t.withItems items) = (f t).withItems items) :
    Parallel us Drained (Read.andFinally x f r) (Read.andFinally y f s) := by
  cases hx : x r with
  | error e t =>
      rw [andFinally_error hx]
      exact .stopped
  | ok a t =>
      have hdrained (h : t.Drained) : (f t).Drained := by
        unfold Drained
        rw [hcursor]
        exact h
      rw [andFinally_ok hx]
      rw [hx] at h
      cases hy : y s with
      | error e u =>
          rw [hy] at h
          cases h with
          | lost h => exact .lost (hdrained h)
      | ok b u =>
          rw [andFinally_ok hy]
          rw [hy] at h
          cases h with
          | lost h => exact .lost (hdrained h)
          | abreast h => exact .abreast (h.map f hcursor hitems)

theorem nested (h : Abreast us r s)
    (hx : ∀ t u, Abreast us t u → Parallel us Drained (x t) (y u)) :
    Parallel us Drained (Read.nested x r) (Read.nested y s) := by
  by_cases hroom : r.nesting < r.limits.nestingDepth
  · have hroom' : s.nesting < s.limits.nestingDepth := by
      obtain ⟨l, _, rfl⟩ := h
      exact hroom
    rw [nested_of_lt hroom, nested_of_lt hroom']
    refine andFinally (hx _ _ ?_) _ (fun _ => rfl) fun _ _ => rfl
    exact h.map (fun t => { t with nesting := t.nesting + 1, deepest := max t.deepest (t.nesting + 1) })
      (fun _ => rfl) fun _ _ => rfl
  · rw [nested_of_le (Int.not_lt.mp hroom)]
    exact .stopped

theorem inScope (h : Abreast us r s)
    (hx : ∀ t u, Abreast us t u → Parallel us Drained (x t) (y u)) :
    Parallel us Drained (Read.inScope x r) (Read.inScope y s) := by
  rw [inScope_run, inScope_run]
  refine andFinally (hx _ _ ?_) _ (fun _ => rfl) fun _ _ => rfl
  exact h.map (fun t => { t with scopes := t.scopes.enter }) (fun _ => rfl) fun _ _ => rfl

theorem capturing (h : Abreast us r s) (names : List String)
    (hx : ∀ t u, Abreast us t u → t.cursor = r.cursor → Parallel us Drained (x t) (y u)) :
    Parallel us Drained (Read.capturing names x r) (Read.capturing names y s) := by
  rw [capturing_run, capturing_run]
  refine andFinally (hx _ _ ?_ ?_) _ (fun _ => rfl) fun _ _ => rfl
  on_goal 2 => rfl
  exact h.map (fun t => { t with scopes := t.scopes.enterCapture names }) (fun _ => rfl)
    fun _ _ => rfl

end Parallel

/-! ## Primitives -/

theorem parallel_next (h : BothAt us v r s) :
    Parallel us P (next r) (next s) := by
  rw [next_of_peek h.left, next_of_peek h.right]
  exact .abreast h.passed

theorem parallel_pass (h : BothAt us v r s) :
    Parallel us P ((do remember v; next : Read _) r) ((do remember v; next : Read _) s) := by
  rw [pass_of_peek h.left, pass_of_peek h.right]
  exact .abreast (h.passed.map (fun t => { t with passed := v :: t.passed }) (fun _ => rfl)
    fun _ _ => rfl)

theorem parallel_record (h : Abreast us r s) (e : Event) :
    Parallel us P (record e r) (record e s) :=
  .abreast (h.map (fun t => { t with events := e :: t.events }) (fun _ => rfl) fun _ _ => rfl)

theorem parallel_updateScopes (h : Abreast us r s) (f : Scopes → Scopes) :
    Parallel us P (updateScopes f r) (updateScopes f s) :=
  .abreast (h.map (fun t => { t with scopes := f t.scopes }) (fun _ => rfl) fun _ _ => rfl)

theorem parallel_skipInline {n m : Nat} (h : Abreast us r s) (hn : r.cursor.items.length ≤ n)
    (hm : s.cursor.items.length ≤ m) :
    Parallel us Spent (skipInline n r) (skipInline m s) := by
  induction n generalizing m r s with
  | zero =>
      obtain ⟨l, hitems, _⟩ := h
      rw [hitems] at hn
      simp at hn
  | succ n ih =>
      rcases h.front with hspent | ⟨v, hfront⟩
      · have hstop : skipInline (n + 1) r = .ok () r := by
          refine skipInline_stop fun t ht hinline => ?_
          have htoken := hspent.peek _ ht
          cases htoken
          cases hinline.1
        rw [hstop]
        exact .lost hspent
      · have hlength := Cursor.length_next_lt hfront.left
        have hlength' := Cursor.length_next_lt hfront.right
        obtain ⟨m, rfl⟩ : ∃ k, m = k + 1 := ⟨m - 1, by omega⟩
        by_cases hv : ∃ t, v = .token t ∧ IsInline t
        · obtain ⟨t, rfl, ht⟩ := hv
          rw [skipInline_step hfront.left ht, skipInline_step hfront.right ht]
          refine ih hfront.passed ?_ ?_
          · change r.cursor.next.2.items.length ≤ n
            omega
          · change s.cursor.next.2.items.length ≤ m
            omega
        · have hstop {t : Reader} {k : Nat} (hpeek : t.cursor.peek 0 = some v) :
              skipInline k t = .ok () t := by
            refine skipInline_stop fun o ho hinline => hv ⟨o, ?_, hinline⟩
            exact Option.some.inj (hpeek.symm.trans ho)
          rw [hstop hfront.left, hstop hfront.right]
          exact .abreast h

theorem parallel_expects {x : Scan Token} {test : Value → Bool} (hx : Expects x test)
    (hsign : test (.token sentinel) = false) (h : Abreast us r s) :
    Parallel us P (scan x r) (scan x s) := by
  rcases h.front with hspent | ⟨v, hfront⟩
  · exact .of_lands ((lands_expects hx hsign hspent).mono fun _ h => h.elim)
  · by_cases hv : test v = true
    · obtain ⟨t, rfl⟩ := hx.token hv
      rw [hx.accept hfront.left hv, hx.accept hfront.right hv]
      exact .abreast hfront.passed
    · have hrefused : ∀ w ∈ r.cursor.peek 0, test w = false := by
        rw [hfront.left]
        rintro _ ⟨⟩
        simpa using hv
      obtain ⟨d, hrun, _⟩ := hx.refuse hrefused
      rw [hrun]
      exact .stopped

/-! ## Variables -/

theorem parallel_resolve (h : Abreast us r s) (ref : Reference) :
    Parallel us P (resolve ref r) (resolve ref s) := by
  have hscopes : s.scopes = r.scopes := by
    obtain ⟨l, _, rfl⟩ := h
    rfl
  unfold resolve
  refine .look ?_
  rw [hscopes]
  split
  · exact .pure h _
  · cases r.scopes.findVariable? ref.name.text with
    | some values => exact .abreast (h.splice values)
    | none =>
        dsimp only
        split
        · exact .pure h _
        · exact .stopped

/-- A definition or a use of a variable, read behind its name. -/
def definitionOrUse (n : Nat) (ref : Reference) : Read VariableUse := do
  let offset ← peek (·.blankOffset)
  match ← peek (·.peekToken offset) with
  | some operator =>
    if operator.type = .colon ∨ operator.isDelim "=" then
      skipWhitespace
      let _ ← next
      let values ← valueList n
      updateScopes (·.setVariable ref.name.text values)
      record (.variableDefined ref.name.text (← look (·.scopes.depth)))
      return .defined ref operator values
    else
      resolve ref
  | none => resolve ref

theorem variableUse_succ (n : Nat) :
    variableUse (n + 1) = (do
      let dollar ← scan (Scan.consumeDelim "$" "Expected '$'")
      let name ← scan (Scan.consume .ident "Expected variable name after '$'")
      definitionOrUse n ⟨dollar, name⟩) := by
  rw [variableUse]
  rfl

theorem definitionOrUse_of_silent {n : Nat} {ref : Reference}
    (h : ∀ v ∈ r.cursor.peek r.cursor.blankOffset, v.isDefinitionSign = false) :
    definitionOrUse n ref r = resolve ref r := by
  unfold definitionOrUse
  rw [bind_ok (peek_run _ r), bind_ok (peek_run _ r)]
  unfold Cursor.peekToken
  cases hpeek : r.cursor.peek r.cursor.blankOffset with
  | none => rfl
  | some v =>
      cases v with
      | token t =>
          have hsign := h _ hpeek
          have ht : ¬ (t.type = .colon ∨ t.isDelim "=" = true) := by
            simpa [Value.isDefinitionSign, Value.hasType, Value.isDelim] using hsign
          simp only [if_neg ht]
      | _ => rfl

/-! ## Ends of value lists -/

/-- The end of a list is the same for both readers, and it is not at the sentinel. -/
structure Stops (us : List Item) (ending : List Value → Read (Option β)) : Prop where
  both : ∀ {read : List Value} {r s : Reader} {v : Value}, BothAt us v r s →
    Parallel us Drained (ending read r) (ending read s)
  drained : ∀ {read : List Value} {r : Reader}, r.Drained → Lands Drained (ending read r)
  sentinel : ∀ {read : List Value} {r : Reader}, r.cursor.peek 0 = some (.token sentinel) →
    ending read r = .ok none r

theorem stops_blockEnd (opener : Token) {closer : TokenType} (hcloser : closer.isCloser = true) :
    Stops us (blockEnd opener closer) where
  both := by
    intro read r s v hfront
    unfold blockEnd
    refine .peek ?_
    simp only [hfront.left, hfront.right]
    split
    · refine (parallel_next hfront).bind_sure fun _ t u h => ?_
      exact .pure h _
    · exact .pure hfront.abreast _
  drained := by
    intro read r h
    unfold blockEnd
    rw [bind_ok (peek_run _ r), h.peek]
    exact h
  sentinel := by
    intro read r hpeek
    have hsign : (Value.token Cascade.sentinel).hasType closer = false := by
      have hne : TokenType.delim ≠ closer := by
        rintro rfl
        cases hcloser
      simp [Value.hasType, Cascade.sentinel, hne]
    unfold blockEnd
    rw [bind_ok (peek_run _ r), hpeek]
    simp only [hsign]
    rfl

theorem stops_definitionEnd :
    Stops us definitionEnd where
  both := by
    intro read r s v hfront
    unfold definitionEnd
    refine .peek ?_
    simp only [hfront.left, hfront.right]
    cases v with
    | token t =>
        dsimp only
        split
        · refine (parallel_next hfront).bind_sure fun _ t u h => ?_
          exact .pure h _
        · exact .pure hfront.abreast _
    | _ => exact .pure hfront.abreast _
  drained := by
    intro read r h
    unfold definitionEnd
    rw [bind_ok (peek_run _ r), h.peek]
    exact h
  sentinel := by
    intro read r hpeek
    unfold definitionEnd
    rw [bind_ok (peek_run _ r), hpeek]
    rfl

/-! ## Values at the sentinel -/

/-- A reader that is spent reads the sentinel, and then nothing is left. -/
structure LandsValues (us : List Item) (n : Nat) : Prop where
  value : ∀ {r : Reader}, r.Spent → Lands Drained (value n r)
  collect : ∀ {β : Type} {ending : List Value → Read (Option β)}, Stops us ending →
    ∀ {read : List Value} {r : Reader}, r.Spent → Lands Drained (collect n ending read r)
  arguments : ∀ {name : Token} {state : CallState} {r : Reader}, r.Spent →
    Lands Drained (arguments n name state r)

theorem lands_value_succ (n : Nat) (h : r.Spent) :
    Lands Drained (value (n + 1) r) := by
  rcases h.cases with hdrained | hpeek
  · rw [value, bind_ok (peek_run _ r), hdrained.peek]
    exact lands_next h
  · have hstart : (r.cursor.checkDelim 0 "$" && r.cursor.check 1 .ident) = false := by
      rw [h.checkDelim (by decide), Bool.false_and]
    rw [value_of_plain hpeek rfl (by decide) hstart]
    exact lands_next h

theorem lands_values (us : List Item) (n : Nat) :
    LandsValues us n := by
  induction n with
  | zero =>
      refine ⟨?_, ?_, ?_⟩
      · intro r _
        rw [value_zero]
        trivial
      · intro β ending _ read r _
        rw [collect_zero]
        trivial
      · intro name state r _
        rw [arguments_zero]
        trivial
  | succ n ih =>
      refine ⟨lands_value_succ n, ?_, ?_⟩
      · intro β ending hends read r h
        have hmore {t : Reader} (ht : t.Spent) {f : Option Value → Read β}
            (hf : ∀ found, f found = Read.collect n ending (found.elim read (· :: read))) :
            Lands Drained ((value n >>= f) t) := by
          refine (ih.value ht).bind fun found u hu => ?_
          rw [hf]
          exact ih.collect hends (.inl hu)
        rw [collect]
        rcases h.cases with hdrained | hpeek
        · refine (hends.drained hdrained).bind fun found t ht => ?_
          cases found with
          | some result => exact ht
          | none => exact hmore (.inl ht) (by rintro (_ | _) <;> rfl)
        · rw [bind_ok (hends.sentinel hpeek)]
          exact hmore h (by rintro (_ | _) <;> rfl)
      · intro name state r h
        rw [arguments, bind_ok (peek_run _ r)]
        rcases h.cases with hdrained | hpeek
        · rw [hdrained.peek]
          exact hdrained
        · rw [hpeek]
          refine (ih.value h).bind fun found t ht => ?_
          cases found with
          | some v => exact ih.arguments (.inl ht)
          | none => exact ih.arguments (.inl ht)

/-! ## Values -/

/-- Values are read by both readers with a budget. -/
structure ParallelValues (us : List Item) (n : Nat) : Prop where
  value : ∀ {r s : Reader}, Abreast us r s → Parallel us Spent (value n r) (value n s)
  collect : ∀ {β : Type} {ending : List Value → Read (Option β)}, Stops us ending →
    ∀ {read : List Value} {r s : Reader}, Abreast us r s →
    Parallel us Drained (collect n ending read r) (collect n ending read s)
  block : ∀ {r s : Reader} {t : Token}, BothAt us (.token t) r s → t.type.isOpener = true →
    Parallel us Drained (block n r) (block n s)
  call : ∀ {r s : Reader} {t : Token}, BothAt us (.token t) r s → t.type = .function →
    Parallel us Drained (call n r) (call n s)
  arguments : ∀ {r s : Reader} {name : Token} {state : CallState}, Abreast us r s →
    Parallel us Drained (arguments n name state r) (arguments n name state s)
  variableUse : ∀ {r s : Reader}, Abreast us r s →
    Parallel us Drained (variableUse n r) (variableUse n s)
  valueList : ∀ {r s : Reader}, Abreast us r s →
    Parallel us Drained (valueList n r) (valueList n s)

/-- Both readers are, or are not, at a variable; but behind a lone dollar sign the first one finds
the sentinel. -/
theorem isVariableStart_cases (h : BothAt us v r s) :
    (r.cursor.checkDelim 0 "$" && r.cursor.check 1 .ident) =
        (s.cursor.checkDelim 0 "$" && s.cursor.check 1 .ident) ∨
      v.isDelim "$" = true ∧ (r.cursor.checkDelim 0 "$" && r.cursor.check 1 .ident) = false ∧
        Lands Spent (next r) := by
  unfold Cursor.checkDelim Cursor.check
  rw [h.left, h.right, ← Cursor.peek_next, ← Cursor.peek_next]
  by_cases hv : v.isDelim "$" = true
  · rcases h.passed.front with hspent | ⟨w, hw⟩
    · refine .inr ⟨hv, ?_, hspent⟩
      have hident : r.cursor.next.2.check 0 .ident = false := hspent.check nofun
      exact Bool.and_eq_false_iff.mpr (.inr hident)
    · left
      rw [show r.cursor.next.2.peek 0 = some w from hw.left,
        show s.cursor.next.2.peek 0 = some w from hw.right]
  · left
    simp [hv]

theorem parallel_value_of {n : Nat} (ih : ParallelValues us n) (h : Abreast us r s) :
    Parallel us Spent (value (n + 1) r) (value (n + 1) s) := by
  rcases h.front with hspent | ⟨v, hfront⟩
  · exact .of_lands ((lands_value_succ n hspent).mono fun _ ht => .inl ht)
  have hspent (t : Reader) (ht : t.Drained) : t.Spent := .inl ht
  rw [value]
  refine .peek ?_
  simp only [hfront.left, hfront.right]
  cases v with
  | reference dollar name =>
      refine (parallel_next hfront).bind_sure fun _ t u habreast => ?_
      refine (parallel_resolve habreast ⟨dollar, name⟩).bind_sure fun use t u habreast => ?_
      exact .pure habreast _
  | block opener contents closer => exact parallel_pass hfront
  | call name args commas closer => exact parallel_pass hfront
  | token t =>
      dsimp only
      split
      · next hopener =>
          refine (ih.block hfront hopener).bind (fun b t u habreast => ?_) fun b t ht => ?_
          · exact .pure habreast _
          · exact hspent t ht
      split
      · next hfunction =>
          refine (ih.call hfront hfunction).bind (fun c t u habreast => ?_) fun c t ht => ?_
          · exact .pure habreast _
          · exact hspent t ht
      refine .peek ?_
      rcases isVariableStart_cases hfront with hstart | ⟨_, hstart, hnext⟩
      · rw [hstart]
        split
        · refine (ih.variableUse h).bind (fun use t u habreast => ?_) fun use t ht => ?_
          · exact .pure habreast _
          · exact hspent t ht
        · exact parallel_next hfront
      · rw [hstart]
        exact .of_lands hnext

theorem parallel_collect_of {n : Nat} (ih : ParallelValues us n)
    {ending : List Value → Read (Option β)} (hends : Stops us ending) {read : List Value}
    (h : Abreast us r s) :
    Parallel us Drained (collect (n + 1) ending read r) (collect (n + 1) ending read s) := by
  rcases h.front with hspent | ⟨v, hfront⟩
  · exact .of_lands ((lands_values us (n + 1)).collect hends hspent)
  have hlands {t : Reader} (ht : t.Spent) (read : List Value) :
      Lands Drained (collect n ending read t) :=
    (lands_values us n).collect hends ht
  rw [collect]
  refine (hends.both hfront).bind (fun found t u habreast => ?_) fun found t ht => ?_
  · cases found with
    | some result => exact .pure habreast _
    | none =>
        refine (ih.value habreast).bind (fun found t u habreast => ?_) fun found t ht => ?_
        · cases found with
          | some v => exact ih.collect hends habreast
          | none => exact ih.collect hends habreast
        · cases found with
          | some v => exact hlands ht _
          | none => exact hlands ht _
  · cases found with
    | some result => exact ht
    | none =>
        refine ((lands_values us n).value (.inl ht)).bind fun found t ht => ?_
        cases found with
        | some v => exact hlands (.inl ht) _
        | none => exact hlands (.inl ht) _

theorem parallel_arguments_of {n : Nat} (ih : ParallelValues us n) {name : Token}
    {state : CallState} (h : Abreast us r s) :
    Parallel us Drained (arguments (n + 1) name state r) (arguments (n + 1) name state s) := by
  rcases h.front with hspent | ⟨v, hfront⟩
  · exact .of_lands ((lands_values us (n + 1)).arguments hspent)
  rw [arguments]
  refine .peek ?_
  simp only [hfront.left, hfront.right]
  split
  · refine (parallel_next hfront).bind_sure fun _ t u habreast => ?_
    exact .pure habreast _
  split
  · refine (parallel_next hfront).bind_sure fun _ t u habreast => ?_
    exact ih.arguments habreast
  · refine (ih.value h).bind (fun found t u habreast => ?_) fun found t ht => ?_
    · cases found with
      | some v => exact ih.arguments habreast
      | none => exact ih.arguments habreast
    · cases found with
      | some v => exact (lands_values us n).arguments ht
      | none => exact (lands_values us n).arguments ht

theorem parallel_variableUse_of {n : Nat} (ih : ParallelValues us n) (hus : Item.Silent us)
    (h : Abreast us r s) :
    Parallel us Drained (variableUse (n + 1) r) (variableUse (n + 1) s) := by
  rw [variableUse_succ]
  refine (parallel_expects (expects_consumeDelim _ _) rfl h).bind_sure fun dollar r s h => ?_
  refine (parallel_expects (expects_consume _ rfl) rfl h).bind_sure fun name r s h => ?_
  rcases h.lookahead hus with ⟨v, hfront, hleft, hright⟩ | ⟨hleft, hright⟩
  · unfold definitionOrUse Cursor.peekToken
    refine .peek (.peek ?_)
    simp only [hleft, hright]
    cases v with
    | token t =>
        dsimp only
        split
        · refine .skipWhitespace ((parallel_next hfront).bind_sure fun _ r s h => ?_)
          refine (ih.valueList h).bind (fun values r s h => ?_) fun values r hr => hr
          refine (parallel_updateScopes h _).bind_sure fun _ r s h => ?_
          have hdepth : s.scopes.depth = r.scopes.depth := by
            obtain ⟨l, _, rfl⟩ := h
            rfl
          refine .look ?_
          rw [hdepth]
          refine (parallel_record h _).bind_sure fun _ r s h => ?_
          exact .pure h _
        · exact parallel_resolve h _
    | _ => exact parallel_resolve h _
  · rw [definitionOrUse_of_silent hleft, definitionOrUse_of_silent hright]
    exact parallel_resolve h _

theorem parallel_values (hus : Item.Silent us) (n : Nat) :
    ParallelValues us n := by
  induction n with
  | zero =>
      refine ⟨?_, ?_, ?_, ?_, ?_, ?_, ?_⟩
      · intro r s _
        rw [value_zero]
        exact .stopped
      · intro β ending _ read r s _
        rw [collect_zero]
        exact .stopped
      · intro r s t _ _
        rw [block_zero]
        exact .stopped
      · intro r s t _ _
        rw [call_zero]
        exact .stopped
      · intro r s name state _
        rw [arguments_zero]
        exact .stopped
      · intro r s _
        rw [variableUse_zero]
        exact .stopped
      · intro r s _
        rw [valueList_zero]
        exact .stopped
  | succ n ih =>
      refine ⟨parallel_value_of ih, ?_, ?_, ?_, parallel_arguments_of ih,
        parallel_variableUse_of ih hus, ?_⟩
      · exact fun hends _ _ _ h => parallel_collect_of ih hends h
      · intro r s t hfront hopener
        obtain ⟨closer, hcloser⟩ := Option.isSome_iff_exists.mp hopener
        rw [block, bind_ok (scan_opener hfront.left hcloser),
          bind_ok (scan_opener hfront.right hcloser)]
        refine .nested hfront.passed fun t u h => .inScope h fun t u h => ?_
        exact ih.collect (stops_blockEnd _ (TokenType.isCloser_of_partner? hcloser)) h
      · intro r s t hfront ht
        rw [call, bind_ok (scan_function _ hfront.left ht),
          bind_ok (scan_function _ hfront.right ht)]
        exact .nested hfront.passed fun t u h => ih.arguments h
      · intro r s h
        rw [valueList]
        refine .peek ?_
        refine (parallel_skipInline h (Nat.le_refl _) (Nat.le_refl _)).bind
          (fun _ t u h => ih.collect stops_definitionEnd h) fun _ t ht => ?_
        exact (lands_values us n).collect stops_definitionEnd ht

end Read
end Cascade

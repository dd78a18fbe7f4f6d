import Cascade.Proofs.Kinship

/-!
# Reading the same from both

Two readers that are alike read the same values.

**Method.**  `Kindred p l R o o'` compares the outcomes of one computation on two
readers, each with a budget of its own: both are faults of the same kind, or both
are results, related by `R`, of readers that are alike again.  Nothing is said
when a budget runs out or a limit is hit, or when the first reader finds the head
of a mixin grouped.  Kinship of outcomes is kept by sequencing and by the brackets
around computations, so that it passes from the primitives to all computations
by induction on the budget of the first reader.

**Results.**
* `kindred_values`: values, blocks, calls, variables and lists of values.
* `kindred_defineMixin`, `kindred_includeMixins`: mixins.
-/

namespace Cascade

/-- A definition of a mixin was refused because its head is a call already. -/
def Diagnostic.AtGroupedHead (d : Diagnostic) : Prop :=
  d.cause = .mixinName ∧ d.token.map Token.text = some Value.Shape.call.name

/-- The stop of the first reader is not compared. -/
def Stop.Excused (p : Pairing) : Stop → Prop
  | .exhausted => True
  | .fault d => d.kind = .recursionLimit ∨ (p.grouping ∧ d.AtGroupedHead)

namespace Read

variable {α β : Type} {p : Pairing} {r s t u : Reader} {l : List Item} {v : Value}

/-- The outcomes of one computation on two readers, the first of which had `l` left to read. -/
inductive Kindred (p : Pairing) (l : List Item) (R : List Item → α → α → Prop) :
    EStateM.Result Stop Reader α → EStateM.Result Stop Reader α → Prop
  | excused {e : Stop} {t : Reader} {o : EStateM.Result Stop Reader α} :
      e.Excused p → Kindred p l R (.error e t) o
  | cut {e : Stop} {u : Reader} {o : EStateM.Result Stop Reader α} :
      e.IsCut → Kindred p l R o (.error e u)
  | same {d d' : Diagnostic} {t u : Reader} :
      d.kind = d'.kind → Kindred p l R (.error (.fault d) t) (.error (.fault d') u)
  | ok {a b : α} {t u : Reader} : R t.cursor.items a b → Alike p t u →
      (Owned p.mixin t.cursor.items → Owned p.mixin l) → Kindred p l R (.ok a t) (.ok b u)

namespace Kindred

variable {R : List Item → α → α → Prop} {Q : List Item → β → β → Prop} {x y : Read α}
  {f g : α → Read β}

theorem mono {R' : List Item → α → α → Prop} {k : List Item}
    {o o' : EStateM.Result Stop Reader α} (h : Kindred p k R o o')
    (hR : ∀ k a b, R k a b → R' k a b) (hown : Owned p.mixin k → Owned p.mixin l) :
    Kindred p l R' o o' := by
  cases h with
  | excused he => exact .excused he
  | cut he => exact .cut he
  | same hkind => exact .same hkind
  | ok hab halike hk => exact .ok (hR _ _ _ hab) halike fun ht => hown (hk ht)

theorem widen {k : List Item} {o o' : EStateM.Result Stop Reader α} (h : Kindred p k R o o')
    (hown : Owned p.mixin k → Owned p.mixin l) :
    Kindred p l R o o' :=
  h.mono (fun _ _ _ hR => hR) hown

theorem bind (h : Kindred p l R (x r) (y s))
    (hf : ∀ {a b : α} {t u : Reader}, R t.cursor.items a b → Alike p t u →
      (Owned p.mixin t.cursor.items → Owned p.mixin l) →
      Kindred p t.cursor.items Q (f a t) (g b u)) :
    Kindred p l Q ((x >>= f) r) ((y >>= g) s) := by
  cases hx : x r with
  | error e t =>
      rw [bind_error hx]
      rw [hx] at h
      cases hy : y s with
      | error e' u =>
          rw [bind_error hy]
          rw [hy] at h
          cases h with
          | excused he => exact .excused he
          | cut he => exact .cut he
          | same hkind => exact .same hkind
      | ok b u =>
          rw [hy] at h
          cases h with
          | excused he => exact .excused he
  | ok a t =>
      rw [hx] at h
      cases hy : y s with
      | error e' u =>
          rw [bind_error hy]
          rw [hy] at h
          cases h with
          | cut he => exact .cut he
      | ok b u =>
          rw [bind_ok hx, bind_ok hy]
          rw [hy] at h
          cases h with
          | ok hab halike hown => exact (hf hab halike hown).widen hown

theorem pure {a b : α} (h : Alike p r s) (hab : R r.cursor.items a b) :
    Kindred p r.cursor.items R ((Pure.pure a : Read α) r) ((Pure.pure b : Read α) s) :=
  .ok hab h id

theorem exhausted_left {o : EStateM.Result Stop Reader α} :
    Kindred p l R (Read.exhausted r) o :=
  .excused trivial

theorem exhausted_right {o : EStateM.Result Stop Reader α} :
    Kindred p l R o (Read.exhausted s) :=
  .cut trivial

theorem failAt {n n' : Nat} {c c' : Cause} (h : c.kind = c'.kind) :
    Kindred p l R (Read.failAt n c r) (Read.failAt n' c' s) :=
  .same h

theorem fail {d d' : Diagnostic} (h : d.kind = d'.kind) :
    Kindred p l R (Read.fail d r) (Read.fail d' s) :=
  .same h

/-- What is recorded does not count. -/
theorem record {e e' : Event} (h : Alike p r s) :
    Kindred p r.cursor.items (fun l _ _ => l = r.cursor.items) (Read.record e r)
      (Read.record e' s) :=
  .ok rfl (h.congr rfl rfl rfl rfl) id

theorem nested (h : ∀ {t u : Reader}, t.cursor = r.cursor → t.scopes = r.scopes →
      u.cursor = s.cursor → u.scopes = s.scopes → Kindred p l R (x t) (y u)) :
    Kindred p l R (Read.nested x r) (Read.nested y s) := by
  by_cases hroom : r.nesting < r.limits.nestingDepth
  · by_cases hroom' : s.nesting < s.limits.nestingDepth
    · rw [nested_of_lt hroom, nested_of_lt hroom']
      have hin := h (t := { r with nesting := r.nesting + 1, deepest := max r.deepest (r.nesting + 1) })
        (u := { s with nesting := s.nesting + 1, deepest := max s.deepest (s.nesting + 1) })
        rfl rfl rfl rfl
      revert hin
      generalize { r with nesting := r.nesting + 1, deepest := max r.deepest (r.nesting + 1) } = r'
      generalize { s with nesting := s.nesting + 1, deepest := max s.deepest (s.nesting + 1) } = s'
      intro hin
      unfold andFinally
      revert hin
      generalize x r' = o
      generalize y s' = o'
      intro hin
      cases hin with
      | excused he => exact .excused he
      | @cut e u o he => cases o <;> exact .cut he
      | same hkind => exact .same hkind
      | ok hab halike hown => exact .ok hab (halike.congr rfl rfl rfl rfl) hown
    · rw [nested_of_le (Int.not_lt.mp hroom')]
      exact .cut rfl
  · rw [nested_of_le (Int.not_lt.mp hroom)]
    exact .excused (.inl rfl)

/-- A scope of its own around a computation; it is gone behind it. -/
theorem inNewScope (names : List String) (isCapture : Bool) (hx : Steady x) (hy : Steady y)
    (h : Alike p r s) (hin : ∀ {t u : Reader}, Alike p t u → t.cursor = r.cursor →
      u.cursor = s.cursor → Kindred p r.cursor.items R (x t) (y u)) :
    Kindred p r.cursor.items R
      (andFinally x (fun r => { r with scopes := r.scopes.exit })
        { r with scopes := ⟨{ parameters := names, isCapture := isCapture }, r.scopes.frames⟩ })
      (andFinally y (fun r => { r with scopes := r.scopes.exit })
        { s with scopes := ⟨{ parameters := names, isCapture := isCapture }, s.scopes.frames⟩ }) := by
  have hpush := h.push names isCapture
  have hrun := hin hpush rfl rfl
  have hleft := hx
    { r with scopes := ⟨{ parameters := names, isCapture := isCapture }, r.scopes.frames⟩ }
  have hright := hy
    { s with scopes := ⟨{ parameters := names, isCapture := isCapture }, s.scopes.frames⟩ }
  revert hrun hleft hright
  unfold andFinally after
  generalize x _ = o
  generalize y _ = o'
  intro hrun hleft hright
  cases hrun with
  | excused he => exact .excused he
  | @cut e u o he => cases o <;> exact .cut he
  | same hkind => exact .same hkind
  | @ok a b t u hab halike hown =>
      have ht : t.scopes.exit = r.scopes := by
        have houter : t.scopes.outer = r.scopes.frames := hleft.outer
        simp [Scopes.exit, Scopes.exit?, houter, Scopes.frames]
      have hu : u.scopes.exit = s.scopes := by
        have houter : u.scopes.outer = s.scopes.frames := hright.outer
        simp [Scopes.exit, Scopes.exit?, houter, Scopes.frames]
      refine .ok hab ?_ hown
      simp only [ht, hu]
      exact halike.withScopes h.scopes fun howned => h.calm (hown howned)

theorem inScope (hx : Steady x) (hy : Steady y) (h : Alike p r s)
    (hin : ∀ {t u : Reader}, Alike p t u → t.cursor = r.cursor → u.cursor = s.cursor →
      Kindred p r.cursor.items R (x t) (y u)) :
    Kindred p r.cursor.items R (Read.inScope x r) (Read.inScope y s) :=
  inNewScope [] false hx hy h hin

theorem capturing (names : List String) (hx : Steady x) (hy : Steady y) (h : Alike p r s)
    (hin : ∀ {t u : Reader}, Alike p t u → t.cursor = r.cursor → u.cursor = s.cursor →
      Kindred p r.cursor.items R (x t) (y u)) :
    Kindred p r.cursor.items R (Read.capturing names x r) (Read.capturing names y s) :=
  inNewScope names true hx hy h hin

theorem peek {γ : Type} {look look' : Cursor → γ} {f g : γ → Read α}
    (h : Kindred p l R (f (look r.cursor) r) (g (look' s.cursor) s)) :
    Kindred p l R ((Read.peek look >>= f) r) ((Read.peek look' >>= g) s) :=
  h

theorem look {γ : Type} {look : Reader → γ} {f g : γ → Read α}
    (h : Kindred p l R (f (look r) r) (g (look s) s)) :
    Kindred p l R ((Read.look look >>= f) r) ((Read.look look >>= g) s) :=
  h

theorem skipWhitespace {f g : Unit → Read α}
    (h : Kindred p r.cursor.skipWhitespace.items R
      (f () { r with cursor := r.cursor.skipWhitespace })
      (g () { s with cursor := s.cursor.skipWhitespace })) :
    Kindred p r.cursor.items R ((Read.skipWhitespace >>= f) r) ((Read.skipWhitespace >>= g) s) :=
  h.widen owned_of_skipWhitespace

/-- Whitespace is read before a computation. -/
theorem skip {f g : Unit → Read α} (h : Alike p r s)
    (hf : ∀ {t u : Reader}, Alike p t u →
      (Owned p.mixin t.cursor.items → Owned p.mixin r.cursor.items) →
      Kindred p t.cursor.items R (f () t) (g () u)) :
    Kindred p r.cursor.items R ((Read.skipWhitespace >>= f) r) ((Read.skipWhitespace >>= g) s) :=
  .skipWhitespace (hf h.skipWhitespace owned_of_skipWhitespace)

/-- The second reader groups what the first one finds grouped. -/
theorem of_takes {a : α} {rest : List Item} (hx : x r = .ok a t) (hy : Takes y s a rest)
    (h : ∀ {u : Reader}, u.cursor.items = rest → u.scopes = s.scopes →
      R t.cursor.items a a ∧ Alike p t u)
    (hown : Owned p.mixin t.cursor.items → Owned p.mixin l) :
    Kindred p l R (x r) (y s) := by
  rw [hx]
  rcases hy with ⟨e, u, hrun, hcut⟩ | ⟨u, hrun, hitems, hscopes⟩
  · rw [hrun]
    exact .cut hcut
  · rw [hrun]
    obtain ⟨hR, halike⟩ := h hitems hscopes
    exact .ok hR halike hown

/-- The computations that go on behind a group and behind its tokens. -/
theorem behind_takes {γ δ : Type} {x : Read γ} {y : Read δ} {f : γ → Read α} {g : δ → Read α} {a : γ}
    {b : δ} {rest : List Item} (hx : x r = .ok a t) (hy : Takes y s b rest)
    (hown : Owned p.mixin t.cursor.items → Owned p.mixin l)
    (h : ∀ {u : Reader}, u.cursor.items = rest → u.scopes = s.scopes →
      Kindred p t.cursor.items R (f a t) (g b u)) :
    Kindred p l R ((x >>= f) r) ((y >>= g) s) := by
  rw [bind_ok hx]
  rcases hy with ⟨e, u, hrun, hcut⟩ | ⟨u, hrun, hitems, hscopes⟩
  · rw [bind_error hrun]
    exact .cut hcut
  · rw [bind_ok hrun]
    exact (h hitems hscopes).widen hown

end Kindred

/-! ## Primitives -/

/-- Both readers read the value that they are at. -/
theorem kindred_next (h : SameFront p r s v) :
    Kindred p r.cursor.items
      (fun l a b => l = r.cursor.next.2.items ∧ a = some v ∧ b = some v) (next r) (next s) := by
  rw [next_of_peek h.left, next_of_peek h.right]
  exact .ok ⟨rfl, rfl, rfl⟩ h.passed h.behind.owned

theorem Cursor.items_next_of_end {c : Cursor} (h : c.peek 0 = none) :
    c.next = (none, c.next.2) ∧ c.next.2.items = [] := by
  have hrest : c.rest = [] := by
    rw [Cursor.peek_eq_getElem?] at h
    exact List.length_eq_zero_iff.mp (Nat.le_zero.mp (List.getElem?_eq_none_iff.mp h))
  have hfront : c.next.1 = none := by
    rw [Cursor.next_fst, hrest]
    rfl
  refine ⟨Prod.ext hfront rfl, ?_⟩
  have hbehind := Cursor.rest_next c
  rw [hrest] at hbehind
  revert hbehind hfront
  unfold Cursor.next Cursor.rest
  have hmark := @Cursor.dropMarkers_ne_marker c.items c.expansions
  revert hmark
  rcases Cursor.dropMarkers c.items c.expansions with ⟨_ | ⟨_ | name, rest⟩, names⟩
  · exact fun _ _ _ => rfl
  · intro _ hfront
    cases hfront
  · exact fun hmark => (hmark rfl).elim

/-- At the end no marker is left. -/
theorem alike_next_of_end (h : Alike p r s) (hr : r.cursor.peek 0 = none)
    (hs : s.cursor.peek 0 = none) :
    Alike p { r with cursor := r.cursor.next.2 } { s with cursor := s.cursor.next.2 } :=
  h.drop (List.append_nil _).symm .nil (Cursor.items_next_of_end hr).2 rfl
    (Cursor.items_next_of_end hs).2 rfl

theorem kindred_next_of_end (h : Alike p r s) (hr : r.cursor.peek 0 = none)
    (hs : s.cursor.peek 0 = none) :
    Kindred p r.cursor.items (fun l a b => l = [] ∧ a = none ∧ b = none) (next r) (next s) := by
  obtain ⟨hfront, hitems⟩ := Cursor.items_next_of_end hr
  obtain ⟨hfront', _⟩ := Cursor.items_next_of_end hs
  have hnext : next r = .ok none { r with cursor := r.cursor.next.2 } := by
    unfold next scan Scan.next
    rw [hfront]
  have hnext' : next s = .ok none { s with cursor := s.cursor.next.2 } := by
    unfold next scan Scan.next
    rw [hfront']
  rw [hnext, hnext']
  refine .ok ⟨hitems, rfl, rfl⟩ (alike_next_of_end h hr hs) ?_
  intro hown
  rw [hitems] at hown
  cases hown

/-- The scan reads a token that passes the test, and it refuses every other value. -/
structure Expects (x : Scan Token) (test : Value → Bool) : Prop where
  accept : ∀ {r : Reader} {t : Token}, r.cursor.peek 0 = some (.token t) → test (.token t) = true →
    scan x r = .ok t { r with cursor := r.cursor.next.2 }
  refuse : ∀ {r : Reader}, (∀ v ∈ r.cursor.peek 0, test v = false) →
    ∃ d, scan x r = .error (.fault d) r ∧ d.kind = .malformed
  token : ∀ {v : Value}, test v = true → ∃ t, v = .token t
  opener : ∀ {t : Token}, t.type.closer?.isSome = true → test (.token t) = false

theorem expects_consume {type : TokenType} (what : String) (htype : type.closer? = none) :
    Expects (Scan.consume type what) (·.hasType type) where
  accept := by
    intro r t hfront ht
    have ht : t.type = type := by simpa [Value.hasType] using ht
    simp [scan, Scan.consume, Cursor.peekToken, hfront, ht]
  refuse := by
    intro r h
    refine ⟨r.cursor.faultAt 0 (.expected what (describeOption (r.cursor.peek 0))), ?_, rfl⟩
    unfold scan Scan.consume Cursor.peekToken
    cases hfront : r.cursor.peek 0 with
    | none => rfl
    | some v =>
        have hv := h v hfront
        cases v with
        | token t =>
            have ht : t.type ≠ type := by simpa [Value.hasType] using hv
            simp [ht]
        | _ => rfl
  token := by
    intro v hv
    cases v with
    | token t => exact ⟨t, rfl⟩
    | _ => cases hv
  opener := fun ht => hasType_of_opener ht htype

theorem expects_consumeDelim (text what : String) :
    Expects (Scan.consumeDelim text what) (·.isDelim text) where
  accept := by
    intro r t hfront ht
    have ht : t.isDelim text = true := ht
    simp [scan, Scan.consumeDelim, Cursor.peekToken, hfront, ht]
  refuse := by
    intro r h
    refine ⟨r.cursor.faultAt 0 (.expected what (describeOption (r.cursor.peek 0))), ?_, rfl⟩
    unfold scan Scan.consumeDelim Cursor.peekToken
    cases hfront : r.cursor.peek 0 with
    | none => rfl
    | some v =>
        have hv := h v hfront
        cases v with
        | token t =>
            have ht : t.isDelim text = false := hv
            simp [ht]
        | _ => rfl
  token := by
    intro v hv
    cases v with
    | token t => exact ⟨t, rfl⟩
    | _ => cases hv
  opener := fun ht => isDelim_of_opener ht text

theorem kindred_expects {x : Scan Token} {test : Value → Bool} (hx : Expects x test)
    (h : Alike p r s) :
    Kindred p r.cursor.items
      (fun l a b => b = a ∧ test (.token a) = true ∧ Behind p r (.token a) l)
      (scan x r) (scan x s) := by
  have hfail (hr : ∀ v ∈ r.cursor.peek 0, test v = false)
      (hs : ∀ v ∈ s.cursor.peek 0, test v = false) :
      Kindred p r.cursor.items
        (fun l a b => b = a ∧ test (.token a) = true ∧ Behind p r (.token a) l)
        (scan x r) (scan x s) := by
    obtain ⟨d, hrun, hkind⟩ := hx.refuse hr
    obtain ⟨d', hrun', hkind'⟩ := hx.refuse hs
    rw [hrun, hrun']
    exact .same (hkind.trans hkind'.symm)
  cases h.front with
  | ended hr hs =>
      refine hfail ?_ ?_
      · rw [hr]
        exact fun _ hv => (Option.not_mem_none _ hv).elim
      · rw [hs]
        exact fun _ hv => (Option.not_mem_none _ hv).elim
  | @same v hfront =>
      by_cases hv : test v = true
      · obtain ⟨t, rfl⟩ := hx.token hv
        rw [hx.accept hfront.left hv, hx.accept hfront.right hv]
        exact .ok ⟨rfl, hv, hfront.behind⟩ hfront.passed hfront.behind.owned
      · have hv : test v = false := by simpa using hv
        refine hfail ?_ ?_
        · rw [hfront.left]
          rintro _ ⟨⟩
          exact hv
        · rw [hfront.right]
          rintro _ ⟨⟩
          exact hv
  | @group g ts rest hfront =>
      obtain ⟨opener, hs, hopener⟩ := hfront.opener
      refine hfail ?_ ?_
      · rw [hfront.left]
        rintro _ ⟨⟩
        by_contra hg
        obtain ⟨t, rfl⟩ := hx.token (by simpa using hg)
        cases hfront.raw
      · rw [hs]
        rintro _ ⟨⟩
        exact hx.opener hopener

/-- Behind a dollar sign the mixin is not being expanded. -/
theorem not_owned_of_dollar {t : Token} (h : Fits p l (.token t))
    (ht : (Value.token t).isDelim "$" = true) :
    ¬ Owned p.mixin l := by
  intro hown
  cases h.2 hown with
  | token hcalm =>
      have hcalm : (Value.token t).isDelim "$" = false := hcalm.2
      rw [hcalm] at ht
      cases ht

/-- Nor is it behind a token that opens a group. -/
theorem not_owned_of_opener {t : Token} (h : Fits p l (.token t))
    (ht : t.type.closer?.isSome = true) :
    ¬ Owned p.mixin l := by
  intro hown
  cases h.2 hown with
  | token hcalm =>
      rw [hcalm.1] at ht
      cases ht

/-! ## Variables -/

/-- Both readers did the same with a variable. -/
def SameUse (p : Pairing) (l : List Item) (a b : VariableUse) : Prop :=
  b = a ∧ (∀ v ∈ a.value?, Fits p l v) ∧ Pending p.mixin l

theorem fits_reference (dollar name : Token) :
    Fits p l (.reference dollar name) :=
  ⟨.reference, fun _ => .reference⟩

theorem kindred_resolve (h : Alike p r s) (hpending : Pending p.mixin r.cursor.items)
    (ref : Reference) :
    Kindred p r.cursor.items (SameUse p) (resolve ref r) (resolve ref s) := by
  have hkept : SameUse p r.cursor.items (.kept ref) (.kept ref) := by
    refine ⟨rfl, ?_, hpending⟩
    rintro _ ⟨⟩
    exact fits_reference _ _
  unfold resolve
  refine .look ?_
  simp only [h.scopes.isParameter, h.scopes.findVariable?, h.scopes.isCapturing]
  split
  · exact .pure h hkept
  · cases hvalues : r.scopes.findVariable? ref.name.text with
    | some values =>
        have hfits (v : Value) (hv : v ∈ values) : Fits p r.cursor.items v :=
          ⟨made_of_findVariable? h.scopes.clean hvalues v hv,
            fun hown => made_of_findVariable? (h.calm hown) hvalues v hv⟩
        refine .ok ⟨rfl, ?_, hpending.values_append⟩ (h.splice hpending hfits)
          owned_values_append.mp
        exact fun _ hv => (Option.not_mem_none _ hv).elim
    | none =>
        dsimp only
        split
        · exact .pure h hkept
        · exact .fail rfl

/-! ## Ends of value lists -/

/-- Both readers are at the end of a list, or both are not.  With `strict` a statement is under
way. -/
def SameEnd (p : Pairing) (strict : Prop) (R : List Item → β → β → Prop) (l : List Item) :
    Option β → Option β → Prop
  | some b, some b' => R l b b'
  | none, none => strict → Ready p.mixin l
  | _, _ => False

/-- The end of a list is the same for both readers. -/
def Ends (p : Pairing) (strict : Prop) (ending : List Value → Read (Option β))
    (R : List Item → β → β → Prop) : Prop :=
  ∀ ⦃read : List Value⦄ ⦃r s : Reader⦄, Alike p r s → (strict → Pending p.mixin r.cursor.items) →
    (∀ v ∈ read, Fits p r.cursor.items v) →
    Kindred p r.cursor.items (SameEnd p strict R) (ending read r) (ending read s)

/-- Both readers read the same block. -/
def SameBlock (p : Pairing) (l : List Item) (a b : Block) : Prop :=
  b = a ∧ Fits p l a.toValue

/-- Both readers read the same values. -/
def SameValues (p : Pairing) (l : List Item) (a b : List Value) : Prop :=
  b = a ∧ ∀ v ∈ a, Fits p l v

theorem fits_block {opener : Token} {vs : List Value} {closer : Option Token}
    (h : ∀ v ∈ vs, Fits p l v) :
    Fits p l (.block opener vs closer) :=
  ⟨.block fun v hv => (h v hv).1, fun hown => .block fun v hv => (h v hv).2 hown⟩

theorem fits_reverse {vs : List Value} (h : ∀ v ∈ vs, Fits p l v) :
    ∀ v ∈ vs.reverse, Fits p l v :=
  fun v hv => h v (List.mem_reverse.mp hv)

theorem sameValues_trim {vs : List Value} (h : ∀ v ∈ vs, Fits p l v) :
    SameValues p l (trimWhitespace vs.reverse) (trimWhitespace vs.reverse) :=
  ⟨rfl, fun v hv => fits_reverse h v (mem_of_mem_trimWhitespace hv)⟩

theorem ends_blockEnd (opener : Token) {closer : TokenType} (hcloser : closer.isCloser = true) :
    Ends p False (blockEnd opener closer) (SameBlock p) := by
  intro read r s h _ hread
  unfold blockEnd
  refine .peek ?_
  cases h.front with
  | ended hr hs =>
      simp only [hr, hs]
      exact .pure h ⟨rfl, fits_block (fits_reverse hread)⟩
  | @same v hfront =>
      simp only [hfront.left, hfront.right]
      split
      · refine (kindred_next hfront).bind ?_
        rintro _ _ t u - halike hown
        exact .pure halike ⟨rfl, fits_block (fits_reverse fun w hw => (hread w hw).mono hown)⟩
      · exact .pure h False.elim
  | group hfront =>
      obtain ⟨o, hs, hopener⟩ := hfront.opener
      have hopens : closer.closer? = none := by
        cases closer <;> simp_all [TokenType.isCloser, TokenType.closer?, TokenType.partner?]
      simp only [hfront.left, hs, hfront.raw.hasType, hasType_of_opener hopener hopens]
      exact .pure h False.elim

theorem ends_definitionEnd :
    Ends p False definitionEnd (SameValues p) := by
  intro read r s h _ hread
  have hmore : Kindred p r.cursor.items (SameEnd p False (SameValues p))
      ((pure none : Read (Option (List Value))) r) ((pure none : Read (Option (List Value))) s) :=
    .pure h False.elim
  unfold definitionEnd
  refine .peek ?_
  cases h.front with
  | ended hr hs =>
      simp only [hr, hs]
      exact .pure h (sameValues_trim hread)
  | @same v hfront =>
      simp only [hfront.left, hfront.right]
      cases v with
      | token t =>
          dsimp only
          split
          · refine (kindred_next hfront).bind ?_
            rintro _ _ t u - halike hown
            exact .pure halike (sameValues_trim fun w hw => (hread w hw).mono hown)
          · exact hmore
      | _ => exact hmore
  | group hfront =>
      obtain ⟨o, hs, hopener⟩ := hfront.opener
      have hends : endsDefinition o = false := by
        have hsemicolon : (o.type == .semicolon) = false := hasType_of_opener hopener rfl
        have hblank : (o.type == .whitespace) = false := hasType_of_opener hopener rfl
        simp [endsDefinition, hsemicolon, hblank]
      simp only [hfront.left, hs, hends]
      cases hfront.raw with
      | block => exact hmore
      | call => exact hmore

/-! ## Values -/

theorem tokenItems_group (opener closer : Token) (inner : List Token) (rest : List Item) :
    tokenItems (opener :: (inner ++ [closer])) ++ rest =
      .value (.token opener) :: (tokenItems inner ++ .value (.token closer) :: rest) := by
  simp [tokenItems]

/-- The second reader reads the tokens of the group as the group. -/
theorem takes_value_of_group {g : Value} {ts : List Token} {rest : List Item}
    (h : GroupFront p r s g ts rest) (n : Nat) :
    Takes (value n) s (some g) rest := by
  obtain ⟨lead, hlead, hitems⟩ := h.right
  cases h.raw with
  | @block opener closer inner us hpartner hinner =>
      rw [tokenItems_group] at hitems
      exact takes_value_of_block (Cursor.peek_of_blank hlead hitems) (isOpener_of_partner? hpartner)
        (takes_block_of hpartner (regroups hinner) hinner.firstToken_not_closer hlead hitems) n
  | @call name closer inner us hname hparen hinner =>
      rw [tokenItems_group] at hitems
      exact takes_value_of_call (Cursor.peek_of_blank hlead hitems) hname
        (takes_call_of hname hparen (regroups hinner) hlead hitems) n

/-- Both readers read the same value, or none.  A statement that was under way still is. -/
def SameValue (p : Pairing) (before l : List Item) (a b : Option Value) : Prop :=
  b = a ∧ (∀ v ∈ a, Fits p l v) ∧ (Ready p.mixin before → Pending p.mixin l)

/-- Both readers read the same call. -/
def SameCall (p : Pairing) (l : List Item) (a b : Call) : Prop :=
  b = a ∧ Fits p l a.toValue ∧ a.name.text ≠ p.mixin

/-- The call that is being read does not name the mixin and is read as it stands. -/
structure FitState (p : Pairing) (l : List Item) (state : CallState) : Prop where
  finished : ∀ arg ∈ state.finished, ∀ v ∈ arg, Fits p l v
  current : ∀ v ∈ state.current, Fits p l v

theorem FitState.mono {state : CallState} {k : List Item} (h : FitState p l state)
    (hown : Owned p.mixin k → Owned p.mixin l) :
    FitState p k state :=
  ⟨fun arg harg v hv => (h.finished arg harg v hv).mono hown,
    fun v hv => (h.current v hv).mono hown⟩

theorem FitState.push {state : CallState} (h : FitState p l state) (hv : Fits p l v) :
    FitState p l (state.push v) := by
  refine ⟨h.finished, ?_⟩
  intro w hw
  rcases List.mem_cons.mp hw with rfl | hw
  · exact hv
  · exact h.current w hw

theorem FitState.separate {state : CallState} (h : FitState p l state) (comma : Token) :
    FitState p l (state.separate comma) := by
  refine ⟨?_, fun _ hw => (List.not_mem_nil hw).elim⟩
  intro arg harg
  rcases List.mem_cons.mp harg with rfl | harg
  · exact fits_reverse h.current
  · exact h.finished arg harg

theorem FitState.close {state : CallState} (h : FitState p l state) {name : Token}
    (hname : name.text ≠ p.mixin) (closer : Option Token) :
    SameCall p l (state.close name closer) (state.close name closer) := by
  have hargs : ∀ arg ∈ (state.close name closer).arguments, ∀ v ∈ arg, Fits p l v := by
    intro arg harg
    unfold CallState.close at harg
    dsimp only at harg
    split at harg
    · exact h.finished arg (List.mem_reverse.mp harg)
    · rcases List.mem_cons.mp (List.mem_reverse.mp harg) with rfl | harg
      · exact fits_reverse h.current
      · exact h.finished arg harg
  exact ⟨rfl, ⟨.call hname fun arg harg v hv => (hargs arg harg v hv).1,
    fun hown => .call trivial fun arg harg v hv => (hargs arg harg v hv).2 hown⟩, hname⟩

/-- Values are read alike with a budget of the first reader. -/
structure KindredValues (p : Pairing) (n : Nat) : Prop where
  value : ∀ {n' : Nat} {r s : Reader}, Alike p r s →
    Kindred p r.cursor.items (SameValue p r.cursor.items) (value n r) (value n' s)
  collect : ∀ {β : Type} {strict : Prop} {ending : List Value → Read (Option β)}
    {R : List Item → β → β → Prop}, Ends p strict ending R →
    ∀ {n' : Nat} {read : List Value} {r s : Reader}, Alike p r s →
    (strict → Pending p.mixin r.cursor.items) → (∀ v ∈ read, Fits p r.cursor.items v) →
    Kindred p r.cursor.items R (collect n ending read r) (collect n' ending read s)
  block : ∀ {n' : Nat} {r s : Reader} {t : Token}, SameFront p r s (.token t) →
    t.type.isOpener = true →
    Kindred p r.cursor.next.2.items (SameBlock p) (block n r) (block n' s)
  call : ∀ {n' : Nat} {r s : Reader} {t : Token}, SameFront p r s (.token t) →
    t.type = .function →
    Kindred p r.cursor.next.2.items (SameCall p) (call n r) (call n' s)
  arguments : ∀ {n' : Nat} {r s : Reader} {name : Token} {state : CallState}, Alike p r s →
    name.text ≠ p.mixin → FitState p r.cursor.items state →
    Kindred p r.cursor.items (SameCall p) (arguments n name state r) (arguments n' name state s)
  variableUse : ∀ {n' : Nat} {r s : Reader}, Alike p r s →
    Kindred p r.cursor.items (SameUse p) (variableUse n r) (variableUse n' s)
  valueList : ∀ {n' : Nat} {r s : Reader}, Alike p r s →
    Kindred p r.cursor.items (SameValues p) (valueList n r) (valueList n' s)

/-- Whitespace without a line feed. -/
def IsInline (t : Token) : Prop :=
  t.type = .whitespace ∧ ¬ t.text.contains '\n'

theorem skipInline_stop {n : Nat} (h : ∀ t, r.cursor.peek 0 = some (.token t) → ¬ IsInline t) :
    skipInline n r = .ok () r := by
  cases n with
  | zero => rfl
  | succ n =>
      rw [skipInline, bind_ok (peek_run _ r)]
      unfold Cursor.peekToken
      cases hfront : r.cursor.peek 0 with
      | none => rfl
      | some v =>
          cases v with
          | token t =>
              have ht : ¬ (t.type = .whitespace ∧ ¬ t.text.contains '\n') := h t hfront
              simp only [if_neg ht]
              rfl
          | _ => rfl

theorem skipInline_step {n : Nat} {t : Token} (hfront : r.cursor.peek 0 = some (.token t))
    (ht : IsInline t) :
    skipInline (n + 1) r = skipInline n { r with cursor := r.cursor.next.2 } := by
  have ht : t.type = .whitespace ∧ ¬ t.text.contains '\n' := ht
  rw [skipInline, bind_ok (peek_run _ r)]
  simp only [Cursor.peekToken, hfront, if_pos ht]
  rw [bind_ok (next_of_peek hfront)]

theorem kindred_skipInline {n n' : Nat} (h : Alike p r s) (hn : r.cursor.rest.length ≤ n)
    (hn' : s.cursor.rest.length ≤ n') :
    Kindred p r.cursor.items (fun _ _ _ => True) (skipInline n r) (skipInline n' s) := by
  induction n generalizing n' r s with
  | zero =>
      have hrest : r.cursor.rest = [] := List.length_eq_zero_iff.mp (Nat.le_zero.mp hn)
      have hr : r.cursor.peek 0 = none := by
        rw [Cursor.peek_eq_getElem?, hrest]
        rfl
      have hs : s.cursor.peek 0 = none := by
        have hend := h.atEnd
        simpa [Cursor.atEnd, hr] using hend
      rw [skipInline_stop (n := n') (by simp [hs])]
      exact .ok trivial h id
  | succ n ih =>
      have hstop (hr : ∀ t, r.cursor.peek 0 = some (.token t) → ¬ IsInline t)
          (hs : ∀ t, s.cursor.peek 0 = some (.token t) → ¬ IsInline t) :
          Kindred p r.cursor.items (fun _ _ _ => True) (skipInline (n + 1) r) (skipInline n' s) := by
        rw [skipInline_stop hr, skipInline_stop hs]
        exact .ok trivial h id
      cases h.front with
      | ended hr hs =>
          refine hstop ?_ ?_
          · simp [hr]
          · simp [hs]
      | group hfront =>
          obtain ⟨o, hs, hopener⟩ := hfront.opener
          refine hstop ?_ ?_
          · intro t ht
            rw [hfront.left] at ht
            cases ht
            cases hfront.raw
          · intro t ht hinline
            rw [hs] at ht
            cases ht
            rw [hinline.1] at hopener
            cases hopener
      | @same v hfront =>
          by_cases hv : ∃ t, v = .token t ∧ IsInline t
          · obtain ⟨t, rfl, ht⟩ := hv
            cases n' with
            | zero =>
                have hrest : s.cursor.rest = [] := List.length_eq_zero_iff.mp (Nat.le_zero.mp hn')
                have hs := hfront.right
                rw [Cursor.peek_eq_getElem?, hrest] at hs
                cases hs
            | succ n' =>
                rw [skipInline_step hfront.left ht, skipInline_step hfront.right ht]
                refine (ih hfront.passed ?_ ?_).widen
                  hfront.behind.owned
                · rw [Cursor.rest_next, List.length_tail]
                  omega
                · rw [Cursor.rest_next, List.length_tail]
                  omega
          · refine hstop ?_ ?_
            · intro t ht hinline
              rw [hfront.left] at ht
              cases ht
              exact hv ⟨t, rfl, hinline⟩
            · intro t ht hinline
              rw [hfront.right] at ht
              cases ht
              exact hv ⟨t, rfl, hinline⟩

/-- The front value is read as it stands. -/
theorem kindred_nextValue (h : SameFront p r s v) :
    Kindred p r.cursor.items (SameValue p r.cursor.items) (next r) (next s) := by
  refine (kindred_next h).mono ?_ id
  rintro _ _ _ ⟨rfl, rfl, rfl⟩
  refine ⟨rfl, ?_, h.behind.ready⟩
  rintro _ ⟨⟩
  exact h.behind.fits

theorem kindred_pass (h : SameFront p r s v) :
    Kindred p r.cursor.items (SameValue p r.cursor.items) ((do remember v; next : Read _) r)
      ((do remember v; next : Read _) s) := by
  rw [pass_of_peek h.left, pass_of_peek h.right]
  refine .ok ⟨rfl, ?_, h.behind.ready⟩ (h.alike rfl rfl rfl rfl) h.behind.owned
  rintro _ ⟨⟩
  exact h.behind.fits

theorem kindred_passGroup {g : Value} {ts : List Token} {rest : List Item}
    (h : GroupFront p r s g ts rest) (n : Nat) :
    Kindred p r.cursor.items (SameValue p r.cursor.items) ((do remember g; next : Read _) r)
      (value n s) := by
  refine .of_takes (pass_of_peek h.left) (takes_value_of_group h n) ?_ h.behind.owned
  intro u hu huscopes
  refine ⟨⟨rfl, ?_, h.behind.ready⟩, h.alike rfl rfl hu huscopes⟩
  rintro _ ⟨⟩
  exact h.behind.fits

theorem kindred_value_of {n : Nat} (ih : KindredValues p n) (h : Alike p r s) (n' : Nat) :
    Kindred p r.cursor.items (SameValue p r.cursor.items) (value (n + 1) r) (value n' s) := by
  cases n' with
  | zero =>
      rw [value_zero]
      exact .exhausted_right
  | succ n' =>
      cases h.front with
      | ended hr hs =>
          rw [value, value]
          refine .peek ?_
          simp only [hr, hs]
          refine (kindred_next_of_end h hr hs).mono ?_ id
          rintro _ _ _ ⟨rfl, rfl, rfl⟩
          exact ⟨rfl, fun _ hv => (Option.not_mem_none _ hv).elim, fun _ hown => absurd hown List.not_mem_nil⟩
      | @group g ts rest hfront =>
          have hside : value (n + 1) r = (do remember g; next : Read _) r := by
            rw [value, bind_ok (peek_run _ r)]
            simp only [hfront.left]
            cases hfront.raw with
            | block => rfl
            | call => rfl
          rw [hside]
          exact kindred_passGroup hfront _
      | @same v hfront =>
          rw [value, value]
          refine .peek ?_
          simp only [hfront.left, hfront.right]
          cases v with
          | reference dollar name =>
              refine (kindred_next hfront).bind ?_
              rintro _ _ t u ⟨hl, rfl, rfl⟩ halike hown
              have hpending : Pending p.mixin t.cursor.items := by
                rw [hl]
                exact hfront.behind.pending rfl rfl
              refine (kindred_resolve halike hpending ⟨dollar, name⟩).bind ?_
              rintro a _ t u ⟨rfl, hfits, hpending⟩ halike _
              exact .pure halike ⟨rfl, hfits, fun _ => hpending⟩
          | block opener contents closer => exact kindred_pass hfront
          | call name args commas closer => exact kindred_pass hfront
          | token t =>
              dsimp only
              by_cases hopener : t.type.isOpener = true
              · have hopens : t.type.closer?.isSome = true := by
                  cases htype : t.type <;> simp_all [TokenType.isOpener, TokenType.partner?,
                    TokenType.closer?]
                have hfree := not_owned_of_opener hfront.behind.fits hopens
                simp only [hopener, if_true]
                refine ((ih.block hfront hopener).bind ?_).widen hfront.behind.owned
                rintro a _ w x ⟨rfl, hfits⟩ halike hown
                refine .pure halike ⟨rfl, ?_, fun _ hw => (hfree (hown hw)).elim⟩
                rintro _ ⟨⟩
                exact hfits
              · simp only [hopener]
                by_cases hfunction : t.type = .function
                · have hopens : t.type.closer?.isSome = true := by
                    rw [hfunction]
                    rfl
                  have hfree := not_owned_of_opener hfront.behind.fits hopens
                  simp only [hfunction, if_true]
                  refine ((ih.call hfront hfunction).bind ?_).widen
                    hfront.behind.owned
                  rintro a _ w x ⟨rfl, hfits, _⟩ halike hown
                  refine .pure halike ⟨rfl, ?_, fun _ hw => (hfree (hown hw)).elim⟩
                  rintro _ ⟨⟩
                  exact hfits
                · simp only [hfunction]
                  refine .peek ?_
                  simp only [h.isVariableStart]
                  by_cases hstart : (r.cursor.checkDelim 0 "$" && r.cursor.check 1 .ident) = true
                  · simp only [hstart, if_true]
                    refine (ih.variableUse h).bind ?_
                    rintro a _ t u ⟨rfl, hfits, hpending⟩ halike hown
                    exact .pure halike ⟨rfl, hfits, fun _ => hpending⟩
                  · simp only [hstart]
                    exact kindred_nextValue hfront

theorem kindred_collect_of {n : Nat} (ih : KindredValues p n) {strict : Prop}
    {ending : List Value → Read (Option β)} {R : List Item → β → β → Prop}
    (hend : Ends p strict ending R) {read : List Value} (h : Alike p r s)
    (hstrict : strict → Pending p.mixin r.cursor.items)
    (hread : ∀ v ∈ read, Fits p r.cursor.items v) (n' : Nat) :
    Kindred p r.cursor.items R (collect (n + 1) ending read r) (collect n' ending read s) := by
  cases n' with
  | zero =>
      rw [collect_zero]
      exact .exhausted_right
  | succ n' =>
      rw [collect, collect]
      refine (hend h hstrict hread).bind ?_
      intro result result' t u hresult halike hown
      cases result <;> cases result'
      case some.some => exact .pure halike hresult
      case some.none | none.some => exact hresult.elim
      case none.none =>
          refine (ih.value halike).bind ?_
          rintro _ v w x ⟨rfl, hv, hpending⟩ halike' hown'
          have hread' : ∀ v ∈ read, Fits p w.cursor.items v :=
            fun v hv => (hread v hv).mono fun hw => hown (hown' hw)
          have hstrict' : strict → Pending p.mixin w.cursor.items :=
            fun hs => hpending (hresult hs)
          cases v with
          | none => exact ih.collect hend halike' hstrict' hread'
          | some v =>
              refine ih.collect hend halike' hstrict' ?_
              intro a ha
              rcases List.mem_cons.mp ha with rfl | ha
              · exact hv a rfl
              · exact hread' a ha

theorem kindred_block_of {n : Nat} (ih : KindredValues p n) {t : Token}
    (hfront : SameFront p r s (.token t)) (hopener : t.type.isOpener = true) (n' : Nat) :
    Kindred p r.cursor.next.2.items (SameBlock p) (block (n + 1) r) (block n' s) := by
  cases n' with
  | zero =>
      rw [block_zero]
      exact .exhausted_right
  | succ n' =>
      obtain ⟨closer, hcloser⟩ := Option.isSome_iff_exists.mp hopener
      have hends := ends_blockEnd (p := p) t (TokenType.isCloser_of_partner? hcloser)
      have hsteady (n : Nat) : Steady (collect n (blockEnd t closer) []) :=
        (steady_values n).collect _ _ (steady_blockEnd t closer)
      rw [block, block, bind_ok (scan_opener hfront.left hcloser),
        bind_ok (scan_opener hfront.right hcloser)]
      refine .nested ?_
      intro w x hw hwscopes hx hxscopes
      have halike : Alike p w x :=
        hfront.alike (congrArg Cursor.items hw) hwscopes (congrArg Cursor.items hx) hxscopes
      refine (Kindred.inScope (hsteady n) (hsteady n') halike ?_).widen ?_
      · intro y z halike' hy _
        rw [← hy]
        exact ih.collect hends halike' False.elim fun _ hv => (List.not_mem_nil hv).elim
      · rw [hw]
        exact id

theorem scan_function {t : Token} (what : String) (hfront : r.cursor.peek 0 = some (.token t))
    (ht : t.type = .function) :
    scan (Scan.consume .function what) r = .ok t { r with cursor := r.cursor.next.2 } := by
  simp [scan, Scan.consume, Cursor.peekToken, hfront, ht]

theorem clean_of_fits {t : Token} (h : Fits p l (.token t)) :
    t.Clean p.mixin := by
  cases h.1 with
  | token ht => exact ht

theorem kindred_call_of {n : Nat} (ih : KindredValues p n) {t : Token}
    (hfront : SameFront p r s (.token t)) (ht : t.type = .function) (n' : Nat) :
    Kindred p r.cursor.next.2.items (SameCall p) (call (n + 1) r) (call n' s) := by
  cases n' with
  | zero =>
      rw [call_zero]
      exact .exhausted_right
  | succ n' =>
      rw [call, call, bind_ok (scan_function _ hfront.left ht),
        bind_ok (scan_function _ hfront.right ht)]
      refine .nested ?_
      intro w x hw hwscopes hx hxscopes
      have halike : Alike p w x :=
        hfront.alike (congrArg Cursor.items hw) hwscopes (congrArg Cursor.items hx) hxscopes
      refine (ih.arguments halike (clean_of_fits hfront.behind.fits (.inr ht)) ?_).widen ?_
      · exact ⟨fun _ h => (List.not_mem_nil h).elim, fun _ h => (List.not_mem_nil h).elim⟩
      · rw [hw]
        exact id

theorem kindred_arguments_of {n : Nat} (ih : KindredValues p n) {name : Token} {state : CallState}
    (h : Alike p r s) (hname : name.text ≠ p.mixin) (hstate : FitState p r.cursor.items state)
    (n' : Nat) :
    Kindred p r.cursor.items (SameCall p) (arguments (n + 1) name state r)
      (arguments n' name state s) := by
  cases n' with
  | zero =>
      rw [arguments_zero]
      exact .exhausted_right
  | succ n' =>
      have hmore {f g : Option Value → Read Call}
          (hf : ∀ found, f found = arguments n name (found.elim state state.push))
          (hg : ∀ found, g found = arguments n' name (found.elim state state.push)) :
          Kindred p r.cursor.items (SameCall p) ((value n >>= f) r) ((value n' >>= g) s) := by
        refine (ih.value h).bind ?_
        rintro _ v t u ⟨rfl, hv, _⟩ halike hown
        rw [hf, hg]
        cases v with
        | none => exact ih.arguments halike hname (hstate.mono hown)
        | some v => exact ih.arguments halike hname ((hstate.mono hown).push (hv v rfl))
      rw [arguments, arguments]
      refine .peek ?_
      cases h.front with
      | ended hr hs =>
          simp only [hr, hs]
          exact .pure h (hstate.close hname _)
      | @same v hfront =>
          simp only [hfront.left, hfront.right]
          split
          · refine (kindred_next hfront).bind ?_
            rintro _ _ t u - halike hown
            exact .pure halike ((hstate.mono hown).close hname _)
          · split
            · refine (kindred_next hfront).bind ?_
              rintro _ _ t u - halike hown
              exact ih.arguments halike hname ((hstate.mono hown).separate _)
            · exact hmore (by rintro (_ | _) <;> rfl) (by rintro (_ | _) <;> rfl)
      | group hfront =>
          obtain ⟨o, hs, hopener⟩ := hfront.opener
          have hparen : (Value.token o).hasType .closeParen = false := hasType_of_opener hopener rfl
          have hcomma : (Value.token o).hasType .comma = false := hasType_of_opener hopener rfl
          simp only [hfront.left, hs, hfront.raw.hasType, hparen, hcomma, Bool.false_eq_true, if_false]
          exact hmore (by rintro (_ | _) <;> rfl) (by rintro (_ | _) <;> rfl)

theorem kindred_valueList_of {n : Nat} (ih : KindredValues p n) (h : Alike p r s) (n' : Nat) :
    Kindred p r.cursor.items (SameValues p) (valueList (n + 1) r) (valueList n' s) := by
  cases n' with
  | zero =>
      rw [valueList_zero]
      exact .exhausted_right
  | succ n' =>
      have hlength (c : Cursor) : c.rest.length ≤ c.items.length :=
        List.length_filterMap_le _ _
      rw [valueList, valueList]
      refine .peek ((kindred_skipInline h (hlength _) (hlength _)).bind ?_)
      rintro _ _ t u - halike hown
      exact ih.collect ends_definitionEnd halike False.elim fun _ hv => (List.not_mem_nil hv).elim

theorem pending_of_free (h : ¬ Owned p.mixin l) :
    Pending p.mixin l :=
  fun hown => (h hown).elim

/-- Behind the name of a variable: a definition of it, or a reference. -/
theorem kindred_variable {n : Nat} (ih : KindredValues p n) (h : Alike p r s)
    (hfree : ¬ Owned p.mixin r.cursor.items) (ref : Reference) (n' : Nat) :
    Kindred p r.cursor.items (SameUse p)
      ((do
        match ← peek (fun c => c.peekToken c.blankOffset) with
        | some operator =>
          if operator.type = .colon ∨ operator.isDelim "=" then
            skipWhitespace
            let _ ← next
            let values ← valueList n
            updateScopes (·.setVariable ref.name.text values)
            record (.variableDefined ref.name.text (← look (·.scopes.depth)))
            return .defined ref operator values
          else
            resolve ref
        | none => resolve ref : Read VariableUse) r)
      ((do
        match ← peek (fun c => c.peekToken c.blankOffset) with
        | some operator =>
          if operator.type = .colon ∨ operator.isDelim "=" then
            skipWhitespace
            let _ ← next
            let values ← valueList n'
            updateScopes (·.setVariable ref.name.text values)
            record (.variableDefined ref.name.text (← look (·.scopes.depth)))
            return .defined ref operator values
          else
            resolve ref
        | none => resolve ref : Read VariableUse) s) := by
  have hresolve := kindred_resolve h (pending_of_free hfree) ref
  refine .peek ?_
  simp only [Cursor.peekToken, Cursor.peek_blankOffset]
  cases h.skipWhitespace.front with
  | ended hr hs =>
      simp only at hr hs
      simp only [hr, hs]
      exact hresolve
  | group hfront =>
      obtain ⟨o, hs, hopener⟩ := hfront.opener
      have hleft := hfront.left
      have hoperator : ¬ (o.type = .colon ∨ o.isDelim "=" = true) := by
        rintro (htype | hdelim)
        · rw [htype] at hopener
          cases hopener
        · rw [isDelim_of_opener hopener] at hdelim
          cases hdelim
      simp only at hs hleft
      simp only [hs, hleft, if_neg hoperator]
      cases hfront.raw with
      | block => exact hresolve
      | call => exact hresolve
  | @same v hfront =>
      have hleft := hfront.left
      have hright := hfront.right
      simp only at hleft hright
      simp only [hleft, hright]
      cases v with
      | token operator =>
          dsimp only
          split
          · refine .skipWhitespace ((kindred_next hfront).bind ?_)
            rintro _ _ t u - halike hbehind
            refine (ih.valueList halike).bind ?_
            rintro _ values w x ⟨rfl, hvalues⟩ halike hlist
            have hset : Kindred p w.cursor.items (fun l _ _ => l = w.cursor.items)
                (updateScopes (·.setVariable ref.name.text values) w)
                (updateScopes (·.setVariable ref.name.text values) x) :=
              .ok rfl (halike.setVariable _ hvalues) id
            refine hset.bind ?_
            rintro _ _ y z hy halike _
            refine .look ((Kindred.record halike).bind ?_)
            rintro _ _ y' z' hy' halike _
            refine .pure halike ⟨rfl, fun _ hv => (Option.not_mem_none _ hv).elim, ?_⟩
            intro hown
            rw [hy', hy] at hown
            exact (hfree (owned_of_skipWhitespace (hbehind (hlist hown)))).elim
          · exact hresolve
      | _ => exact hresolve

theorem kindred_variableUse_of {n : Nat} (ih : KindredValues p n) (h : Alike p r s) (n' : Nat) :
    Kindred p r.cursor.items (SameUse p) (variableUse (n + 1) r) (variableUse n' s) := by
  cases n' with
  | zero =>
      rw [variableUse_zero]
      exact .exhausted_right
  | succ n' =>
      rw [variableUse, variableUse]
      refine (kindred_expects (expects_consumeDelim _ _) h).bind ?_
      rintro dollar _ t u ⟨rfl, hdollar, hbehind⟩ halike _
      have hfree := not_owned_of_dollar hbehind.fits hdollar
      refine (kindred_expects (expects_consume _ rfl) halike).bind ?_
      rintro name _ w x ⟨rfl, _, _⟩ halike' hown
      exact kindred_variable ih halike' (fun hw => hfree (hown hw)) _ n'

theorem kindred_values (p : Pairing) (n : Nat) :
    KindredValues p n := by
  induction n with
  | zero =>
      constructor <;> intros <;> simp only [value_zero, collect_zero, block_zero, call_zero,
        arguments_zero, variableUse_zero, valueList_zero] <;> exact .exhausted_left
  | succ n ih =>
      exact {
        value := fun h => kindred_value_of ih h _
        collect := fun hend _ _ _ _ h hstrict hread => kindred_collect_of ih hend h hstrict hread _
        block := fun hfront hopener => kindred_block_of ih hfront hopener _
        call := fun hfront ht => kindred_call_of ih hfront ht _
        arguments := fun h hname hstate => kindred_arguments_of ih h hname hstate _
        variableUse := fun h => kindred_variableUse_of ih h _
        valueList := fun h => kindred_valueList_of ih h _ }

end Read
end Cascade

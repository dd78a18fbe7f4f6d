import Cascade.Proofs.Grouping

/-!
# Grouping comes to an end

Where brackets match, no dollar sign stands before a name and no more groups are
open at once than the limit allows, reading values gives the groups of the tokens.
It takes a number of steps that their length bounds.

**Method.**  `Gathered depth ts vs` says that the tokens make up the values, with at
most `depth` groups open at once.  `Reaches x r a rest` says that the computation
gives the result, goes on to the items and leaves the number of open groups as it
was.  `Gathers` is the statement about the two loops over values, for all that may
follow; it is proved along `Gathered`.

**Results.**
* `exists_gathered`: tokens whose brackets match make up some values.
* `allValues_of_gathered`: these values are read.
-/

namespace Cascade

/-! ## Matching brackets with a bound -/

/-- Brackets and functions are closed by their own closers, and at most so many are open at once. -/
inductive Nests : Nat → List Token → Prop
  | nil {depth : Nat} : Nests depth []
  | single {depth : Nat} {t : Token} {ts : List Token} :
      t.type.closer? = none → t.type.isCloser = false → Nests depth ts → Nests depth (t :: ts)
  | group {depth : Nat} {opener closer : Token} {inner ts : List Token} :
      opener.type.closer? = some closer.type → Nests depth inner → Nests (depth + 1) ts →
      Nests (depth + 1) (opener :: (inner ++ closer :: ts))

/-- The tokens make up the values, with at most so many groups open at once. -/
inductive Gathered : Nat → List Token → List Value → Prop
  | nil {depth : Nat} : Gathered depth [] []
  | single {depth : Nat} {t : Token} {ts : List Token} {vs : List Value} :
      t.type.closer? = none → t.type.isCloser = false →
      (t.isDelim "$" = true → ∀ u ∈ ts.head?, u.type ≠ .ident) → Gathered depth ts vs →
      Gathered depth (t :: ts) (.token t :: vs)
  | block {depth : Nat} {opener closer : Token} {inner ts : List Token} {us vs : List Value} :
      opener.type.partner? = some closer.type → Gathered depth inner us → Gathered (depth + 1) ts vs →
      Gathered (depth + 1) (opener :: (inner ++ closer :: ts)) (.block opener us (some closer) :: vs)
  | call {depth : Nat} {name closer : Token} {inner ts : List Token} {us vs : List Value} :
      name.type = .function → closer.type = .closeParen → Gathered depth inner us →
      Gathered (depth + 1) ts vs →
      Gathered (depth + 1) (name :: (inner ++ closer :: ts)) (callOf name us closer :: vs)

/-- Tokens whose brackets match make up some values. -/
theorem exists_gathered {depth : Nat} {ts : List Token} (h : Nests depth ts) (hvar : NoVariable ts) :
    ∃ vs, Gathered depth ts vs := by
  induction h with
  | nil => exact ⟨[], .nil⟩
  | @single depth t ts hopens hcloses _ ih =>
      obtain ⟨vs, hvs⟩ := ih hvar.tail
      refine ⟨_, .single hopens hcloses ?_ hvs⟩
      intro hdollar u hu
      cases ts with
      | nil => cases hu
      | cons w ws =>
          cases hu
          exact (List.isChain_cons_cons.mp hvar).1 hdollar
  | @group depth opener closer inner ts hcloser _ _ ihinner ih =>
      have hrest : NoVariable (inner ++ closer :: ts) := hvar.tail
      obtain ⟨us, hus⟩ := ihinner (List.isChain_append.mp hrest).1
      obtain ⟨vs, hvs⟩ := ih (List.isChain_append.mp hrest).2.1.tail
      rcases TokenType.closer?_cases hcloser with hpartner | ⟨hname, hparen⟩
      · exact ⟨_, .block hpartner hus hvs⟩
      · exact ⟨_, .call hname hparen hus hvs⟩

theorem Gathered.firstToken_not_closer {depth : Nat} {ts : List Token} {vs : List Value}
    (h : Gathered depth ts vs) :
    ∀ v ∈ vs, v.firstToken.type.isCloser = false := by
  induction h with
  | nil => simp
  | single _ hcloses _ _ ih => exact List.forall_mem_cons.mpr ⟨hcloses, ih⟩
  | @block _ opener _ _ _ _ _ hpartner _ _ _ ih =>
      refine List.forall_mem_cons.mpr ⟨?_, ih⟩
      exact TokenType.isCloser_of_opens (TokenType.closer?_of_partner? hpartner)
  | @call _ name _ _ _ _ _ hname _ _ _ _ ih =>
      refine List.forall_mem_cons.mpr ⟨?_, ih⟩
      change name.type.isCloser = false
      rw [hname]
      rfl

namespace Read

variable {α β : Type} {r : Reader}

/-! ## Computations that come to an end -/

/-- The computation gives the result and goes on to the items, with as many groups open as before. -/
def Reaches (x : Read α) (r : Reader) (a : α) (rest : List Item) : Prop :=
  ∃ s, x r = .ok a s ∧ s.cursor.items = rest ∧ s.nesting = r.nesting ∧ s.limits = r.limits

/-- One more group may be opened so many times, one in the other. -/
def Room (r : Reader) (depth : Nat) : Prop :=
  r.nesting + depth ≤ r.limits.nestingDepth

theorem Room.of_eq {s : Reader} {depth : Nat} (h : Room r depth) (hnesting : s.nesting = r.nesting)
    (hlimits : s.limits = r.limits) :
    Room s depth := by
  unfold Room
  rw [hnesting, hlimits]
  exact h

namespace Reaches

theorem pure {a : α} {rest : List Item} (h : r.cursor.items = rest) :
    Reaches (Pure.pure a) r a rest :=
  ⟨r, rfl, h, rfl, rfl⟩

theorem bind {x : Read α} {f : α → Read β} {a : α} {b : β} {mid rest : List Item}
    (hx : Reaches x r a mid)
    (hf : ∀ s : Reader, s.cursor.items = mid → s.nesting = r.nesting → s.limits = r.limits →
      Reaches (f a) s b rest) :
    Reaches (x >>= f) r b rest := by
  obtain ⟨s, hrun, hitems, hnesting, hlimits⟩ := hx
  obtain ⟨t, hrun', hitems', hnesting', hlimits'⟩ := hf s hitems hnesting hlimits
  exact ⟨t, (bind_ok hrun).trans hrun', hitems', hnesting'.trans hnesting, hlimits'.trans hlimits⟩

theorem of_run {x y : Read α} {a : α} {rest : List Item} (hrun : x r = y r)
    (h : Reaches y r a rest) :
    Reaches x r a rest := by
  unfold Reaches
  rw [hrun]
  exact h

theorem peek {f : Cursor → α} {g : α → Read β} {b : β} {rest : List Item}
    (h : Reaches (g (f r.cursor)) r b rest) :
    Reaches (Read.peek f >>= g) r b rest :=
  h

theorem next {rest : List Item} {v : Value} (hitems : r.cursor.items = .value v :: rest) :
    Reaches Read.next r (some v) rest :=
  ⟨_, next_of_peek (Cursor.peek_of_blank Item.blank_nil hitems),
    Cursor.items_next_of_blank Item.blank_nil hitems, rfl, rfl⟩

theorem nested {x : Read α} {a : α} {rest : List Item} {depth : Nat} (hroom : Room r (depth + 1))
    (h : ∀ s : Reader, s.cursor = r.cursor → Room s depth → Reaches x s a rest) :
    Reaches (nested x) r a rest := by
  have hlt : r.nesting < r.limits.nestingDepth := by
    unfold Room at hroom
    push_cast at hroom
    omega
  have hinner : Room { r with nesting := r.nesting + 1, deepest := max r.deepest (r.nesting + 1) }
      depth := by
    unfold Room at hroom ⊢
    push_cast at hroom
    simp only
    omega
  obtain ⟨s, hrun, hitems, hnesting, hlimits⟩ :=
    h { r with nesting := r.nesting + 1, deepest := max r.deepest (r.nesting + 1) } rfl hinner
  refine ⟨_, (nested_of_lt hlt).trans (andFinally_ok hrun), hitems, ?_, hlimits⟩
  simp only [hnesting]
  omega

theorem inScope {x : Read α} {a : α} {rest : List Item} {depth : Nat} (hroom : Room r depth)
    (h : ∀ s : Reader, s.cursor = r.cursor → Room s depth → Reaches x s a rest) :
    Reaches (inScope x) r a rest := by
  obtain ⟨s, hrun, hitems, hnesting, hlimits⟩ := h { r with scopes := r.scopes.enter } rfl hroom
  exact ⟨_, inScope_run.trans (andFinally_ok hrun), hitems, hnesting, hlimits⟩

end Reaches

/-! ## Single values -/

theorem reaches_single {rest : List Item} {t : Token} (hopens : t.type.closer? = none)
    (hitems : r.cursor.items = .value (.token t) :: rest)
    (hvar : t.isDelim "$" = true → ∀ v ∈ Item.first? rest, v.hasType .ident = false) (n : Nat) :
    Reaches (value (n + 1)) r (some (.token t)) rest :=
  .of_run (value_of_single hopens Item.blank_nil hitems hvar n) (.next hitems)

/-! ## Lists of values -/

/-- The tokens are read as the values, by both loops over values, in three steps for each token. -/
structure Gathers (depth : Nat) (ts : List Token) (vs : List Value) : Prop where
  collect : ∀ {β : Type} {ending : List Value → Read (Option β)} {b : β} {rest rest' : List Item}
    {r : Reader} {read : List Value} {m n : Nat}, (∀ v ∈ vs, Skips ending v.firstToken) →
    (∀ v ∈ Item.first? rest, v.hasType .ident = false) →
    r.cursor.items = tokenItems ts ++ rest → Room r depth → m + 3 * ts.length ≤ n →
    (∀ (k : Nat) (s : Reader), m ≤ k → s.cursor.items = rest → s.nesting = r.nesting →
      s.limits = r.limits → Reaches (collect k ending (vs.reverse ++ read)) s b rest') →
    Reaches (collect n ending read) r b rest'
  arguments : ∀ {name : Token} {b : Call} {rest rest' : List Item} {r : Reader} {state : CallState}
    {m n : Nat}, (∀ v ∈ Item.first? rest, v.hasType .ident = false) →
    r.cursor.items = tokenItems ts ++ rest → Room r depth → m + 3 * ts.length ≤ n →
    (∀ (k : Nat) (s : Reader), m ≤ k → s.cursor.items = rest → s.nesting = r.nesting →
      s.limits = r.limits → Reaches (arguments k name (vs.foldl CallState.add state)) s b rest') →
    Reaches (arguments n name state) r b rest'

theorem reaches_collect_step {ending : List Value → Read (Option β)} {b : β}
    {items mid rest : List Item} {read : List Value} {t : Token} {v : Value} {n : Nat}
    (hitems : r.cursor.items = .value (.token t) :: items) (hskip : Skips ending t)
    (hvalue : Reaches (value n) r (some v) mid)
    (hnext : ∀ s : Reader, s.cursor.items = mid → s.nesting = r.nesting → s.limits = r.limits →
      Reaches (collect n ending (v :: read)) s b rest) :
    Reaches (collect (n + 1) ending read) r b rest := by
  rw [collect]
  refine .of_run (bind_ok (hskip read r _ hitems)) ?_
  exact hvalue.bind hnext

theorem reaches_arguments_step {name : Token} {b : Call} {mid rest : List Item} {state : CallState}
    {t : Token} {v : Value} {n : Nat} (hfront : r.cursor.peek 0 = some (.token t))
    (ht : t.type.isCloser = false) (hcomma : t.type ≠ .comma) (hv : v.hasType .comma = false)
    (hvalue : Reaches (value n) r (some v) mid)
    (hnext : ∀ s : Reader, s.cursor.items = mid → s.nesting = r.nesting → s.limits = r.limits →
      Reaches (arguments n name (state.add v)) s b rest) :
    Reaches (arguments (n + 1) name state) r b rest := by
  have hparen : (t.type == .closeParen) = false := by
    cases htype : t.type <;> simp_all [TokenType.isCloser]
  have hcomma : (t.type == .comma) = false := by
    simpa using hcomma
  have hadd : state.add v = state.push v := by simp [CallState.add, hv]
  rw [hadd] at hnext
  rw [arguments]
  refine .peek ?_
  simp only [hfront, Value.hasType, hparen, hcomma, Bool.false_eq_true, if_false]
  exact hvalue.bind hnext

theorem reaches_block {opener closer : Token} {inner : List Token} {us : List Value}
    {rest : List Item} {depth n : Nat} (hpartner : opener.type.partner? = some closer.type)
    (hinner : Gathers depth inner us) (hgrouped : ∀ v ∈ us, v.firstToken.type.isCloser = false)
    (hitems : r.cursor.items =
      .value (.token opener) :: (tokenItems inner ++ .value (.token closer) :: rest))
    (hroom : Room r (depth + 1)) (hn : 1 + 3 * inner.length ≤ n) :
    Reaches (value (n + 2)) r (some (.block opener us (some closer))) rest := by
  have hcloser := TokenType.isCloser_of_partner? hpartner
  have hfront := Cursor.peek_of_blank Item.blank_nil hitems
  have hopener : Reaches (scan Scan.opener) r (opener, closer.type)
      (tokenItems inner ++ .value (.token closer) :: rest) :=
    ⟨{ r with cursor := r.cursor.next.2 }, scan_opener hfront hpartner,
      Cursor.items_next_of_blank Item.blank_nil hitems, rfl, rfl⟩
  have hblock : Reaches (block (n + 1)) r ⟨opener, us, some closer⟩ rest := by
    rw [block]
    refine hopener.bind fun s hs hnesting hlimits => ?_
    refine .nested (hroom.of_eq hnesting hlimits) fun t ht hroom' => .inScope hroom' fun u hu hroom' => ?_
    have hitems' : u.cursor.items = tokenItems inner ++ .value (.token closer) :: rest := by
      rw [hu, ht, hs]
    refine hinner.collect (fun v hv => skips_blockEnd hcloser (hgrouped v hv)) ?_ hitems' hroom' hn ?_
    · intro v hv
      cases hv
      cases htype : closer.type <;> simp_all [Value.hasType, TokenType.isCloser]
    · intro k w hk hw _ _
      obtain ⟨k, rfl⟩ := Nat.exists_eq_add_of_le' hk
      have hend : w.cursor.peek 0 = some (.token closer) := Cursor.peek_of_blank Item.blank_nil hw
      have hclosed : Reaches (blockEnd opener closer.type (us.reverse ++ [])) w
          (some ⟨opener, us, some closer⟩) rest := by
        unfold blockEnd
        refine .peek ?_
        simp only [hend, Value.hasType, beq_self_eq_true, if_true, List.append_nil,
          List.reverse_reverse]
        exact (Reaches.next hw).bind fun q hq _ _ => .pure hq
      rw [collect]
      exact hclosed.bind fun q hq _ _ => .pure hq
  rw [value]
  refine .peek ?_
  simp only [hfront, isOpener_of_partner? hpartner, if_true]
  exact hblock.bind fun s hs _ _ => .pure hs

theorem reaches_call {name closer : Token} {inner : List Token} {us : List Value}
    {rest : List Item} {depth n : Nat} (hname : name.type = .function)
    (hparen : closer.type = .closeParen) (hinner : Gathers depth inner us)
    (hitems : r.cursor.items =
      .value (.token name) :: (tokenItems inner ++ .value (.token closer) :: rest))
    (hroom : Room r (depth + 1)) (hn : 1 + 3 * inner.length ≤ n) :
    Reaches (value (n + 2)) r (some (callOf name us closer)) rest := by
  have hfront := Cursor.peek_of_blank Item.blank_nil hitems
  have htoken : r.cursor.peekToken 0 = some name := by
    simp [Cursor.peekToken, hfront]
  have hconsume : Reaches (scan (Scan.consume .function "Expected function")) r name
      (tokenItems inner ++ .value (.token closer) :: rest) := by
    refine ⟨{ r with cursor := r.cursor.next.2 }, ?_,
      Cursor.items_next_of_blank Item.blank_nil hitems, rfl, rfl⟩
    simp [scan, Scan.consume, htoken, hname]
  have hcall : Reaches (call (n + 1)) r ((us.foldl CallState.add {}).close name (some closer)) rest := by
    rw [call]
    refine hconsume.bind fun s hs hnesting hlimits => ?_
    refine .nested (hroom.of_eq hnesting hlimits) fun t ht hroom' => ?_
    have hitems' : t.cursor.items = tokenItems inner ++ .value (.token closer) :: rest := by
      rw [ht, hs]
    refine hinner.arguments ?_ hitems' hroom' hn ?_
    · intro v hv
      cases hv
      simp [Value.hasType, hparen]
    · intro k w hk hw _ _
      obtain ⟨k, rfl⟩ := Nat.exists_eq_add_of_le' hk
      have hend : w.cursor.peek 0 = some (.token closer) := Cursor.peek_of_blank Item.blank_nil hw
      rw [arguments]
      refine .peek ?_
      simp only [hend, Value.hasType, hparen, beq_self_eq_true, if_true]
      exact (Reaches.next hw).bind fun q hq _ _ => .pure hq
  rw [value]
  refine .peek ?_
  simp only [hfront, hname, if_true]
  exact hcall.bind fun s hs _ _ => .pure hs

/-- One more group at the front of a list. -/
theorem Gathers.cons {opener closer : Token} {inner ts : List Token} {v : Value} {vs : List Value}
    {depth : Nat} (hfirst : v.firstToken = opener) (hopener : opener.type.isCloser = false)
    (hcomma : opener.type ≠ .comma) (hv : v.hasType .comma = false)
    (hvalue : ∀ {r : Reader} {rest : List Item} {n : Nat}, r.cursor.items =
      .value (.token opener) :: (tokenItems inner ++ .value (.token closer) :: rest) →
        Room r depth → 1 + 3 * inner.length ≤ n → Reaches (value (n + 2)) r (some v) rest)
    (ih : Gathers depth ts vs) :
    Gathers depth (opener :: (inner ++ closer :: ts)) (v :: vs) := by
  have hsplit (rest : List Item) : tokenItems (opener :: (inner ++ closer :: ts)) ++ rest =
      .value (.token opener) ::
        (tokenItems inner ++ .value (.token closer) :: (tokenItems ts ++ rest)) := by
    simp [tokenItems]
  have hfuel {m n : Nat} (hn : m + 3 * (opener :: (inner ++ closer :: ts)).length ≤ n) :
      ∃ k, n = k + 2 + 1 ∧ 1 + 3 * inner.length ≤ k ∧ m + 3 * ts.length ≤ k + 2 := by
    simp only [List.length_cons, List.length_append] at hn
    exact ⟨n - 3, by omega, by omega, by omega⟩
  refine ⟨?_, ?_⟩
  · intro _ ending b rest rest' r read m n hskips hrest hitems hroom hn hnext
    rw [hsplit] at hitems
    obtain ⟨k, rfl, hinner, hbehind⟩ := hfuel hn
    have hskip := hskips v List.mem_cons_self
    rw [hfirst] at hskip
    refine reaches_collect_step hitems hskip (hvalue hitems hroom hinner) ?_
    intro s hs hnesting hlimits
    refine ih.collect (fun v hv => hskips v (List.mem_cons_of_mem _ hv)) hrest hs
      (hroom.of_eq hnesting hlimits) hbehind ?_
    intro j u hj hu hnesting' hlimits'
    have hgo := hnext j u hj hu (hnesting'.trans hnesting) (hlimits'.trans hlimits)
    simpa using hgo
  · intro name b rest rest' r state m n hrest hitems hroom hn hnext
    rw [hsplit] at hitems
    obtain ⟨k, rfl, hinner, hbehind⟩ := hfuel hn
    have hfront := Cursor.peek_of_blank Item.blank_nil hitems
    refine reaches_arguments_step hfront hopener hcomma hv (hvalue hitems hroom hinner) ?_
    intro s hs hnesting hlimits
    refine ih.arguments hrest hs (hroom.of_eq hnesting hlimits) hbehind ?_
    intro j u hj hu hnesting' hlimits'
    exact hnext j u hj hu (hnesting'.trans hnesting) (hlimits'.trans hlimits)

/-- Reading groups the tokens into the values that they make up. -/
theorem gathers {depth : Nat} {ts : List Token} {vs : List Value} (h : Gathered depth ts vs) :
    Gathers depth ts vs := by
  induction h with
  | nil =>
      refine ⟨?_, ?_⟩
      · intro _ _ _ _ _ r _ m n _ _ hitems _ hn hnext
        exact hnext n r hn hitems rfl rfl
      · intro _ _ _ _ r _ m n _ hitems _ hn hnext
        exact hnext n r hn hitems rfl rfl
  | @single depth t ts vs hopens hcloses hvar hgrouped ih =>
      have hsecond {rest : List Item} (hrest : ∀ v ∈ Item.first? rest, v.hasType .ident = false) :
          t.isDelim "$" = true →
            ∀ v ∈ Item.first? (tokenItems ts ++ rest), v.hasType .ident = false := by
        intro hdollar v hv
        cases ts with
        | nil => exact hrest v hv
        | cons u us =>
            cases hv
            have hu := hvar hdollar u rfl
            simpa [Value.hasType] using hu
      have hfuel {m n : Nat} (hn : m + 3 * (t :: ts).length ≤ n) :
          ∃ k, n = k + 1 + 1 ∧ m + 3 * ts.length ≤ k + 1 := by
        rw [List.length_cons] at hn
        exact ⟨n - 2, by omega, by omega⟩
      refine ⟨?_, ?_⟩
      · intro _ ending b rest rest' r read m n hskips hrest hitems hroom hn hnext
        obtain ⟨k, rfl, hbehind⟩ := hfuel hn
        refine reaches_collect_step hitems (hskips _ List.mem_cons_self)
          (reaches_single hopens hitems (hsecond hrest) k) ?_
        intro s hs hnesting hlimits
        refine ih.collect (fun v hv => hskips v (List.mem_cons_of_mem _ hv)) hrest hs
          (hroom.of_eq hnesting hlimits) hbehind ?_
        intro j u hj hu hnesting' hlimits'
        have hgo := hnext j u hj hu (hnesting'.trans hnesting) (hlimits'.trans hlimits)
        simpa using hgo
      · intro name b rest rest' r state m n hrest hitems hroom hn hnext
        obtain ⟨k, rfl, hbehind⟩ := hfuel hn
        have hfront := Cursor.peek_of_blank Item.blank_nil hitems
        have hgo : ∀ s : Reader, s.cursor.items = tokenItems ts ++ rest → s.nesting = r.nesting →
            s.limits = r.limits → Reaches (arguments (k + 1) name (state.add (.token t))) s b rest' := by
          intro s hs hnesting hlimits
          refine ih.arguments hrest hs (hroom.of_eq hnesting hlimits) hbehind ?_
          intro j u hj hu hnesting' hlimits'
          exact hnext j u hj hu (hnesting'.trans hnesting) (hlimits'.trans hlimits)
        by_cases hcomma : t.type = .comma
        · have hadd : state.add (.token t) = state.separate t := by
            simp [CallState.add, Value.hasType, hcomma, Value.witness]
          rw [hadd] at hgo
          rw [arguments]
          refine .peek ?_
          simp only [hfront, Value.hasType, hcomma]
          exact (Reaches.next hitems).bind hgo
        · exact reaches_arguments_step hfront hcloses hcomma (by simpa [Value.hasType] using hcomma)
            (reaches_single hopens hitems (hsecond hrest) k) hgo
  | @block depth opener closer inner ts us vs hpartner hinner _ ihinner ih =>
      refine .cons rfl ?_ ?_ rfl ?_ ih
      · exact TokenType.isCloser_of_opens (TokenType.closer?_of_partner? hpartner)
      · intro htype
        simp [htype, TokenType.partner?] at hpartner
      · intro r rest n hitems hroom hn
        exact reaches_block hpartner ihinner hinner.firstToken_not_closer hitems hroom hn
  | @call depth name closer inner ts us vs hname hparen hinner _ ihinner ih =>
      refine .cons rfl ?_ ?_ rfl ?_ ih
      · rw [hname]
        rfl
      · rw [hname]
        decide
      · intro r rest n hitems hroom hn
        exact reaches_call hname hparen ihinner hitems hroom hn

theorem skips_inputEnd (t : Token) :
    Skips inputEnd t := by
  intro read r rest hitems
  have hfront := Cursor.peek_of_blank Item.blank_nil hitems
  have hend : r.cursor.atEnd = false := by simp [Cursor.atEnd, hfront]
  unfold inputEnd
  rw [bind_ok (peek_run _ r), hend]
  rfl

/-- The values that the tokens make up are read with three steps for each token and one more. -/
theorem allValues_of_gathered {depth : Nat} {ts : List Token} {vs : List Value}
    (h : Gathered depth ts vs) (hitems : r.cursor.items = tokenItems ts) (hroom : Room r depth) {n : Nat}
    (hn : 1 + 3 * ts.length ≤ n) :
    ∃ s, allValues n r = .ok vs s := by
  have hreach : Reaches (allValues n) r vs [] := by
    unfold allValues
    refine (gathers h).collect (fun v _ => skips_inputEnd _) (by simp [Item.first?])
      (hitems.trans (List.append_nil _).symm) hroom hn ?_
    intro k s hk hs _ _
    obtain ⟨k, rfl⟩ := Nat.exists_eq_add_of_le' hk
    have hend : s.cursor.atEnd = true := by
      rw [Cursor.atEnd, Cursor.peek_eq_getElem?, Cursor.rest, hs]
      rfl
    have hlast : Reaches (inputEnd (vs.reverse ++ [])) s (some vs) [] := by
      unfold inputEnd
      refine .peek ?_
      simp only [hend, if_true, List.append_nil, List.reverse_reverse]
      exact .pure hs
    rw [collect]
    exact hlast.bind fun u hu _ _ => .pure hu
  obtain ⟨s, hrun, _⟩ := hreach
  exact ⟨s, hrun⟩

end Read
end Cascade

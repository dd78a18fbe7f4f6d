import Cascade.Proofs.Kinship
import Cascade.Proofs.Provenance

/-!
# Reading sound values

What a reader has in its cursor and in its scopes is made of the tokens of the
source, and stays so.  Hence every fault of a reader is found at one of them.

**Method.**  `Read.Careful P x R` is the triple of `Proofs.Provenance` for readers.
The steps that ask for a bracket in front are stated for a reader that has one
there; all callers look at the front first, and what they see is what is read next,
whatever markers stand before it.

**Results.**
* `carefulValues`: values come out grouped, with no bracket left open.
* `careful_atRule`, `careful_qualifiedRule`, `careful_nextRule`: rules are made of
  such values, and the block of a qualified rule is one in braces.
-/

namespace Cascade

/-! ## Scopes and readers -/

/-- The body of the mixin and the defaults of its parameters are made of tokens with `P`. -/
structure Mixin.Sound (P : Token → Prop) (m : Mixin) : Prop where
  body : ∀ v ∈ m.body, v.AllTokens P
  fallbacks : ∀ p ∈ m.parameterList, ∀ vs ∈ p.fallback, ∀ v ∈ vs, v.AllTokens P

/-- All that the scope binds is made of tokens with `P`. -/
structure Scope.Sound (P : Token → Prop) (f : Scope) : Prop where
  assigned : ∀ e ∈ f.assigned, ∀ v ∈ e.2, v.AllTokens P
  aliases : ∀ e ∈ f.aliases, ∀ v ∈ e.2, v.AllTokens P
  mixins : ∀ e ∈ f.mixins, e.2.Sound P

/-- All scopes bind what is made of tokens with `P`. -/
def Scopes.Sound (P : Token → Prop) (s : Scopes) : Prop :=
  ∀ f ∈ s.frames, f.Sound P

namespace Scopes.Sound

variable {P : Token → Prop} {s : Scopes}

theorem push (h : s.Sound P) (names : List String) (isCapture : Bool) :
    Scopes.Sound P ⟨{ parameters := names, isCapture := isCapture }, s.frames⟩ :=
  List.forall_mem_cons.mpr ⟨⟨nofun, nofun, nofun⟩, h⟩

theorem exit (h : s.Sound P) :
    s.exit.Sound P := by
  obtain ⟨current, outer⟩ := s
  cases outer with
  | nil => exact h
  | cons frame rest => exact fun f hf => h f (List.mem_cons_of_mem _ hf)

theorem setCurrent (h : s.Sound P) {frame : Scope} (hframe : frame.Sound P) :
    Scopes.Sound P { s with current := frame } :=
  List.forall_mem_cons.mpr ⟨hframe, (List.forall_mem_cons.mp h).2⟩

theorem setVariable (h : s.Sound P) (name : String) {vs : List Value}
    (hvs : ∀ v ∈ vs, v.AllTokens P) :
    (s.setVariable name vs).Sound P := by
  have hcurrent := (List.forall_mem_cons.mp h).1
  refine h.setCurrent ⟨fun e he => ?_, hcurrent.aliases, hcurrent.mixins⟩
  rcases Bindings.of_mem_set he with rfl | he
  · exact hvs
  · exact hcurrent.assigned e he

theorem setAlias (h : s.Sound P) (name : String) {vs : List Value}
    (hvs : ∀ v ∈ vs, v.AllTokens P) :
    (s.setAlias name vs).Sound P := by
  have hcurrent := (List.forall_mem_cons.mp h).1
  refine h.setCurrent ⟨hcurrent.assigned, fun e he => ?_, hcurrent.mixins⟩
  rcases Bindings.of_mem_set he with rfl | he
  · exact hvs
  · exact hcurrent.aliases e he

theorem setMixin (h : s.Sound P) (name : String) {m : Mixin} (hm : m.Sound P) :
    (s.setMixin name m).Sound P := by
  have hcurrent := (List.forall_mem_cons.mp h).1
  refine h.setCurrent ⟨hcurrent.assigned, hcurrent.aliases, fun e he => ?_⟩
  rcases Bindings.of_mem_set he with rfl | he
  · exact hm
  · exact hcurrent.mixins e he

theorem findVariable? (h : s.Sound P) {name : String} {vs : List Value}
    (hvs : s.findVariable? name = some vs) :
    ∀ v ∈ vs, v.AllTokens P := by
  obtain ⟨f, hf, hfind⟩ := List.exists_of_findSome?_eq_some hvs
  exact (h f hf).assigned _ (Bindings.mem_of_find? hfind)

theorem findAlias? (h : s.Sound P) {name : String} {vs : List Value}
    (hvs : s.findAlias? name = some vs) :
    ∀ v ∈ vs, v.AllTokens P := by
  obtain ⟨f, hf, hfind⟩ := List.exists_of_findSome?_eq_some hvs
  exact (h f hf).aliases _ (Bindings.mem_of_find? hfind)

theorem findMixin? (h : s.Sound P) {name : String} {m : Mixin}
    (hm : s.findMixin? name = some m) :
    m.Sound P := by
  obtain ⟨f, hf, hfind⟩ := List.exists_of_findSome?_eq_some hm
  exact (h f hf).mixins _ (Bindings.mem_of_find? hfind)

end Scopes.Sound

/-- What the reader reads and knows is made of tokens with `P`. -/
structure Reader.Sound (P : Token → Prop) (r : Reader) : Prop where
  cursor : r.cursor.Sound P false
  scopes : r.scopes.Sound P

/-- The tokens that stand for the use of an alias have `P`. -/
structure AliasClosed (P : Token → Prop) : Prop where
  keyword : ∀ {t : Token}, P t → P ⟨.atKeyword, "media", t.position, .none⟩
  blank : ∀ {t : Token}, P t → P ⟨.whitespace, " ", t.position, .none⟩

theorem Reader.sound_ofTokens {P : Token → Prop} {ts : List Token} (limits : Limits)
    (hts : ∀ t ∈ ts, P t) (hend : ∃ t ∈ ts, t.type = .eof) :
    (Reader.ofTokens ts limits).Sound P := by
  have hvalues : ∀ v ∈ valuesOf ts, v.Sound P false := by
    intro v hv
    obtain ⟨t, ht, rfl⟩ := List.mem_map.mp hv
    exact (Value.AllTokens.token (hts t (List.mem_filter.mp ht).1)).sound
  refine ⟨?_, List.forall_mem_cons.mpr ⟨⟨nofun, nofun, nofun⟩, List.forall_mem_nil _⟩⟩
  simp only [Reader.ofTokens, Cursor.ofTokens]
  split
  · obtain ⟨t, ht, htype⟩ := hend
    have hmem : t ∈ ts.filter fun t => t.type == .eof := List.mem_filter.mpr ⟨ht, by simp [htype]⟩
    have hlast := List.getLast?_eq_some_getLast (List.ne_nil_of_mem hmem)
    refine ⟨(Cursor.all_ofValues 0).mpr hvalues, ?_⟩
    simp only [hlast, Option.map_some, Option.getD_some]
    exact .of_token (hts _ (List.mem_filter.mp (List.getLast_mem _)).1)
  · next hne =>
      refine Cursor.sound_ofValues 0 ?_ hvalues
      rintro hnil
      rw [hnil] at hne
      exact hne rfl

namespace Read

variable {α β : Type} {P : Token → Prop} {r : Reader}

/-! ## The triple -/

/-- The outcome is a result with `R` at a sound reader, a sound fault, or that no step was left. -/
def Safe (P : Token → Prop) (R : α → Prop) : EStateM.Result Stop Reader α → Prop
  | .ok a s => s.Sound P ∧ R a
  | .error (.fault d) _ => d.Sound P
  | .error .exhausted _ => True

/-- From every sound reader the computation has a safe outcome. -/
def Careful (P : Token → Prop) (x : Read α) (R : α → Prop) : Prop :=
  ∀ r, r.Sound P → Safe P R (x r)

theorem Careful.pure {a : α} {R : α → Prop} (h : R a) :
    Careful P (Pure.pure a : Read α) R :=
  fun _ hr => ⟨hr, h⟩

theorem bind_safe {x : Read α} {f : α → Read β} {R : α → Prop} {S : β → Prop}
    (hx : Safe P R (x r)) (hf : ∀ a s, s.Sound P → R a → Safe P S (f a s)) :
    Safe P S ((x >>= f) r) := by
  cases hr : x r with
  | ok a s =>
      rw [hr] at hx
      rw [bind_ok hr]
      exact hf a s hx.1 hx.2
  | error e s =>
      rw [hr] at hx
      rw [bind_error hr]
      cases e <;> exact hx

theorem Careful.bind {x : Read α} {f : α → Read β} {R : α → Prop} {S : β → Prop}
    (hx : Careful P x R) (hf : ∀ a, R a → Careful P (f a) S) :
    Careful P (x >>= f) S :=
  fun r hr => bind_safe (hx r hr) fun a s hs ha => hf a ha s hs

theorem Careful.weaken {x : Read α} {R S : α → Prop} (hx : Careful P x R) (hRS : ∀ a, R a → S a) :
    Careful P x S := by
  intro r hr
  have hsafe := hx r hr
  cases h : x r with
  | ok a s =>
      rw [h] at hsafe
      exact ⟨hsafe.1, hRS a hsafe.2⟩
  | error e s =>
      rw [h] at hsafe
      cases e <;> exact hsafe

/-- What stands in front is known to what follows. -/
theorem Careful.front {f : Option Value → Read β} {S : β → Prop}
    (hf : ∀ r, r.Sound P → Safe P S (f (r.cursor.peek 0) r)) :
    Careful P (peek (·.peek 0) >>= f) S :=
  hf

theorem careful_peek (f : Cursor → α) :
    Careful P (peek f) fun _ => True :=
  fun _ hr => ⟨hr, trivial⟩

theorem careful_look (f : Reader → α) :
    Careful P (look f) fun _ => True :=
  fun _ hr => ⟨hr, trivial⟩

theorem careful_lookScopes :
    Careful P (look (·.scopes)) (Scopes.Sound P) :=
  fun _ hr => ⟨hr, hr.scopes⟩

theorem careful_peekFront :
    Careful P (peek (·.peek 0)) fun front => ∀ v, front = some v → v.AllTokens P :=
  fun _ hr => ⟨hr, fun _ hv => (hr.cursor.peek hv).tokens⟩

theorem careful_peekToken (n : Nat) :
    Careful P (peek (·.peekToken n)) fun front => ∀ t, front = some t → P t :=
  fun _ hr => ⟨hr, fun _ ht => hr.cursor.peekToken ht⟩

theorem careful_fail {d : Diagnostic} (hd : d.Sound P) {R : α → Prop} :
    Careful P (fail d) R :=
  fun _ _ => hd

theorem careful_failAt (n : Nat) {cause : Cause} (hcause : cause.isGenuine = true) {R : α → Prop} :
    Careful P (failAt n cause) R :=
  fun _ hr => hr.cursor.faultAt n hcause

theorem careful_exhausted {R : α → Prop} :
    Careful P exhausted R :=
  fun _ _ => trivial

theorem scan_safe {x : Scan α} {R : α → Prop} (hr : r.Sound P)
    (hx : Scan.Safe P false R (x r.cursor)) :
    Safe P R (scan x r) := by
  unfold scan
  cases h : x r.cursor with
  | ok a c =>
      rw [h] at hx
      exact ⟨⟨hx.1, hr.scopes⟩, hx.2⟩
  | error d c =>
      rw [h] at hx
      exact hx

theorem careful_scan {x : Scan α} {R : α → Prop} (hx : Scan.Careful P false x R) :
    Careful P (scan x) R :=
  fun r hr => scan_safe hr (hx r.cursor hr.cursor)

theorem careful_next :
    Careful P next fun front => ∀ v, front = some v → v.AllTokens P :=
  careful_scan fun c hc => ⟨hc.next, fun v hv => ((Scan.careful_next c hc).2 v hv).tokens⟩

/-- What is read is what stands in front. -/
theorem next_safe (hr : r.Sound P) {R : Option Value → Prop} (hR : R (r.cursor.peek 0)) :
    Safe P R (next r) := by
  refine ⟨⟨hr.cursor.next, hr.scopes⟩, ?_⟩
  rwa [Cursor.next_fst, List.head?_eq_getElem?, ← Cursor.peek_eq_getElem?]

theorem careful_skipWhitespace :
    Careful P skipWhitespace fun _ => True :=
  careful_scan Scan.careful_skipWhitespace

theorem careful_splice {vs : List Value} (hvs : ∀ v ∈ vs, v.AllTokens P) :
    Careful P (splice vs) fun _ => True := by
  refine fun r hr => ⟨⟨⟨?_, hr.cursor.last⟩, hr.scopes⟩, trivial⟩
  intro v hv
  rw [Cursor.rest_splice] at hv
  exact (List.mem_append.mp hv).elim (fun h => (hvs v h).sound) (hr.cursor.values v)

theorem careful_spliceExpansion (mixin : String) {vs : List Value}
    (hvs : ∀ v ∈ vs, v.AllTokens P) :
    Careful P (spliceExpansion mixin vs) fun _ => True := by
  refine fun r hr => ⟨⟨⟨?_, hr.cursor.last⟩, hr.scopes⟩, trivial⟩
  intro v hv
  rw [Cursor.rest_spliceExpansion] at hv
  exact (List.mem_append.mp hv).elim (fun h => (hvs v h).sound) (hr.cursor.values v)

theorem careful_updateScopes {f : Scopes → Scopes} (hf : ∀ s, s.Sound P → (f s).Sound P) :
    Careful P (updateScopes f) fun _ => True :=
  fun r hr => ⟨⟨hr.cursor, hf r.scopes hr.scopes⟩, trivial⟩

theorem careful_record (e : Event) :
    Careful P (record e) fun _ => True :=
  fun _ hr => ⟨⟨hr.cursor, hr.scopes⟩, trivial⟩

theorem andFinally_safe {x : Read α} {g : Reader → Reader} {R : α → Prop}
    (hx : Safe P R (x r)) (hg : ∀ s, s.Sound P → (g s).Sound P) :
    Safe P R (andFinally x g r) := by
  cases h : x r with
  | ok a s =>
      rw [h] at hx
      rw [andFinally_ok h]
      exact ⟨hg s hx.1, hx.2⟩
  | error e s =>
      rw [h] at hx
      rw [andFinally_error h]
      cases e <;> exact hx

theorem Careful.nested {x : Read α} {R : α → Prop} (hx : Careful P x R) :
    Careful P (nested x) R := by
  intro r hr
  by_cases hroom : r.nesting < r.limits.nestingDepth
  · rw [nested_of_lt hroom]
    exact andFinally_safe (hx _ ⟨hr.cursor, hr.scopes⟩) fun s hs => ⟨hs.cursor, hs.scopes⟩
  · rw [nested_of_le (Int.not_lt.mp hroom)]
    exact hr.cursor.faultAt 0 rfl

theorem Careful.inScope {x : Read α} {R : α → Prop} (hx : Careful P x R) :
    Careful P (inScope x) R := by
  intro r hr
  rw [inScope_run]
  exact andFinally_safe (hx _ ⟨hr.cursor, hr.scopes.push [] false⟩)
    fun s hs => ⟨hs.cursor, hs.scopes.exit⟩

/-- The cursor is the same inside the scope of a mixin. -/
theorem capturing_safe {x : Read α} {R : α → Prop} (hr : r.Sound P) (names : List String)
    (hx : ∀ s, s.Sound P → s.cursor = r.cursor → Safe P R (x s)) :
    Safe P R (capturing names x r) := by
  rw [capturing_run]
  exact andFinally_safe (hx _ ⟨hr.cursor, hr.scopes.push names true⟩ rfl)
    fun s hs => ⟨hs.cursor, hs.scopes.exit⟩

/-! ## Values -/

/-- A value that stays, if any, is sound. -/
def KeepsSound (P : Token → Prop) (use : VariableUse) : Prop :=
  ∀ v, use.value? = some v → v.Sound P true

theorem careful_resolve {ref : Reference} (hdollar : P ref.dollar) (hname : P ref.name) :
    Careful P (resolve ref) (KeepsSound P) := by
  have hkept : Careful P (Pure.pure (.kept ref) : Read VariableUse) (KeepsSound P) := by
    refine .pure ?_
    rintro _ ⟨rfl⟩
    exact ⟨.reference hdollar hname, fun _ => trivial⟩
  unfold resolve
  refine .bind careful_lookScopes fun scopes hscopes => ?_
  split
  · exact hkept
  · split
    · next hfind =>
        refine .bind (careful_splice (hscopes.findVariable? hfind)) fun _ _ => .pure ?_
        exact fun v hv => by cases hv
    · split
      · exact hkept
      · exact careful_fail (Diagnostic.sound_atToken rfl hname)

theorem careful_skipInline :
    ∀ n : Nat, Careful P (skipInline n) fun _ => True
  | 0 => .pure trivial
  | n + 1 => by
      rw [skipInline]
      refine .bind (careful_peek _) fun front _ => ?_
      split
      · split
        · exact .bind careful_next fun _ _ => careful_skipInline n
        · exact .pure trivial
      · exact .pure trivial

/-- All values of the list are sound and grouped. -/
abbrev AllSound (P : Token → Prop) (vs : List Value) : Prop :=
  ∀ v ∈ vs, v.Sound P true

theorem AllSound.reverse {vs : List Value} (h : AllSound P vs) :
    AllSound P vs.reverse :=
  fun v hv => h v (List.mem_reverse.mp hv)

theorem AllSound.trimmed {vs : List Value} (h : AllSound P vs) :
    AllSound P (trimWhitespace vs.reverse) :=
  fun v hv => h.reverse v (mem_of_mem_trimWhitespace hv)

theorem AllSound.tokens {vs : List Value} (h : AllSound P vs) :
    ∀ v ∈ vs, v.AllTokens P :=
  fun v hv => (h v hv).tokens

/-- Behind sound values the end of a list, if it is found, is found with `R`. -/
def EndsCareful (P : Token → Prop) (ending : List Value → Read (Option β)) (R : β → Prop) : Prop :=
  ∀ read, AllSound P read → Careful P (ending read) fun found => ∀ b, found = some b → R b

theorem Careful.none {R : β → Prop} :
    Careful P (Pure.pure none : Read (Option β)) fun found => ∀ b, found = some b → R b :=
  .pure fun _ h => by cases h

theorem Careful.some {b : β} {R : β → Prop} (h : R b) :
    Careful P (Pure.pure (some b) : Read (Option β)) fun found => ∀ b, found = some b → R b := by
  refine .pure ?_
  rintro _ ⟨rfl⟩
  exact h

theorem careful_blockEnd {opener : Token} (closer : TokenType) (hopener : opener.OpensBlock P) :
    EndsCareful P (blockEnd opener closer) fun b => b.toValue.AllTokens P := by
  intro read hread
  unfold blockEnd
  refine .bind careful_peekFront fun front hfront => ?_
  split
  · exact .some (.block hopener hread.reverse.tokens (by simp))
  · split
    · next htype =>
        refine .bind careful_next fun _ _ => .some (.block hopener hread.reverse.tokens ?_)
        rintro _ ⟨rfl⟩
        exact (hfront _ rfl).witness htype
    · exact .none

theorem careful_definitionEnd :
    EndsCareful P definitionEnd fun vs => ∀ v ∈ vs, v.AllTokens P := by
  intro read hread
  unfold definitionEnd
  refine .bind (careful_peek _) fun front _ => ?_
  split
  · exact .some hread.trimmed.tokens
  · split
    · exact .bind careful_next fun _ _ => .some hread.trimmed.tokens
    · exact .none
  · exact .none

/-- What has been read of a call is made of tokens with `P`. -/
structure CallState.Sound (P : Token → Prop) (s : CallState) : Prop where
  finished : ∀ arg ∈ s.finished, ∀ v ∈ arg, v.AllTokens P
  commas : ∀ t ∈ s.commas, P t
  current : ∀ v ∈ s.current, v.AllTokens P

namespace CallState.Sound

variable {s : CallState}

theorem push (h : s.Sound P) {v : Value} (hv : v.AllTokens P) :
    (s.push v).Sound P :=
  ⟨h.finished, h.commas, List.forall_mem_cons.mpr ⟨hv, h.current⟩⟩

theorem all (h : s.Sound P) :
    ∀ arg ∈ s.current.reverse :: s.finished, ∀ v ∈ arg, v.AllTokens P :=
  List.forall_mem_cons.mpr ⟨fun v hv => h.current v (List.mem_reverse.mp hv), h.finished⟩

theorem separate (h : s.Sound P) {comma : Token} (hcomma : P comma) :
    (s.separate comma).Sound P :=
  ⟨h.all, List.forall_mem_cons.mpr ⟨hcomma, h.commas⟩, List.forall_mem_nil _⟩

theorem close (h : s.Sound P) {name : Token} {closer : Option Token} (hname : P name)
    (hcloser : ∀ t ∈ closer, P t) :
    (s.close name closer).toValue.AllTokens P := by
  refine .call hname (fun arg harg => ?_) (fun t ht => h.commas t (List.mem_reverse.mp ht)) hcloser
  have harg := List.mem_reverse.mp harg
  split at harg
  · exact h.finished arg harg
  · exact h.all arg harg

end CallState.Sound

/-- The computations that read values are careful at a budget. -/
structure CarefulValues (P : Token → Prop) (n : Nat) : Prop where
  value : Careful P (value n) fun found => ∀ v, found = some v → v.Sound P true
  collect : ∀ {β : Type} {ending : List Value → Read (Option β)} {R : β → Prop},
    EndsCareful P ending R → ∀ read, AllSound P read → Careful P (collect n ending read) R
  block : ∀ {r : Reader} {t : Token}, r.Sound P → r.cursor.peekToken 0 = some t →
    t.type.isOpener = true → Safe P (fun b => b.toValue.AllTokens P) (block n r)
  call : Careful P (call n) fun c => c.toValue.AllTokens P
  arguments : ∀ name state, P name → CallState.Sound P state →
    Careful P (arguments n name state) fun c => c.toValue.AllTokens P
  variableUse : Careful P (variableUse n) (KeepsSound P)
  valueList : Careful P (valueList n) fun vs => ∀ v ∈ vs, v.AllTokens P

/-- The front value is resolved, grouped with what it opens, or read as it stands. -/
theorem careful_value {n : Nat} (ih : CarefulValues P n) :
    Careful P (value (n + 1)) fun found => ∀ v, found = some v → v.Sound P true := by
  have hkeep {x : Read VariableUse} (hx : Careful P x (KeepsSound P)) :
      Careful P (do return (← x).value?) fun found => ∀ v, found = some v → v.Sound P true :=
    .bind hx fun _ huse => .pure huse
  rw [Read.value]
  refine .front fun r hr => ?_
  cases hfront : r.cursor.peek 0 with
  | none => exact next_safe hr (hfront ▸ fun v hv => by cases hv)
  | some v =>
      have hv := (hr.cursor.peek hfront).tokens
      have hpass (hwhole : v.IsWhole) :
          Safe P (fun found => ∀ v, found = some v → v.Sound P true)
            ((do remember v; next : Read (Option Value)) r) := by
        rw [pass_of_peek hfront]
        refine ⟨⟨hr.cursor.next, hr.scopes⟩, ?_⟩
        rintro _ ⟨rfl⟩
        exact ⟨hv, fun _ => hwhole⟩
      cases v with
      | reference dollar name =>
          cases hv with
          | reference hdollar hname =>
              exact Careful.bind careful_next (fun _ _ => hkeep (careful_resolve hdollar hname)) r hr
      | block opener contents closer => exact hpass trivial
      | call name args commas closer => exact hpass trivial
      | token t =>
          have hpeek : r.cursor.peekToken 0 = some t := by simp [Cursor.peekToken, hfront]
          dsimp only
          split
          · next hopener =>
              refine bind_safe (ih.block hr hpeek hopener) fun b s hs hb => ⟨hs, ?_⟩
              rintro _ ⟨rfl⟩
              exact ⟨hb, fun _ => trivial⟩
          · next hopener =>
              split
              · refine Careful.bind ih.call (fun c hc => .pure ?_) r hr
                rintro _ ⟨rfl⟩
                exact ⟨hc, fun _ => trivial⟩
              · next hfunction =>
                  rw [bind_ok (show isVariableStart r = .ok _ r from rfl)]
                  split
                  · exact hkeep ih.variableUse r hr
                  · refine next_safe hr ?_
                    rw [hfront]
                    rintro _ ⟨rfl⟩
                    have hopens := TokenType.closer?_eq_none_iff.mpr ⟨by simpa using hopener, hfunction⟩
                    exact ⟨hv, fun _ => hopens⟩

theorem carefulValues (n : Nat) :
    CarefulValues P n := by
  induction n with
  | zero =>
      constructor
      case block =>
        intros
        rw [block_zero]
        trivial
      all_goals
        intros
        simp only [value_zero, collect_zero, call_zero, arguments_zero, variableUse_zero,
          valueList_zero]
        exact careful_exhausted
  | succ n ih =>
      refine ⟨careful_value ih, ?_, ?_, ?_, ?_, ?_, ?_⟩
      · intro β ending R hending read hread
        rw [Read.collect]
        refine .bind (hending read hread) fun found hfound => ?_
        split
        · exact .pure (hfound _ rfl)
        · refine .bind ih.value fun v hv => ?_
          split
          · exact ih.collect hending _ (List.forall_mem_cons.mpr ⟨hv _ rfl, hread⟩)
          · exact ih.collect hending _ hread
      · intro r t hr hpeek hopener
        rw [Read.block]
        refine bind_safe (scan_safe hr (Scan.opener_safe hr.cursor hpeek hopener)) ?_
        rintro ⟨_, closer⟩ s hs rfl
        exact (ih.collect (careful_blockEnd closer ⟨hr.cursor.peekToken hpeek, .inl hopener⟩) [] (List.forall_mem_nil _)).inScope.nested s hs
      · rw [Read.call]
        refine .bind (careful_scan (Scan.careful_consume _ _)) fun name hname => ?_
        exact (ih.arguments name {} hname.1 ⟨List.forall_mem_nil _, List.forall_mem_nil _, List.forall_mem_nil _⟩).nested
      · intro name state hname hstate
        rw [Read.arguments]
        refine .bind careful_peekFront fun front hfront => ?_
        split
        · exact .pure (hstate.close hname (by simp))
        · split
          · next htype =>
              refine .bind careful_next fun _ _ => .pure (hstate.close hname ?_)
              rintro _ ⟨rfl⟩
              exact (hfront _ rfl).witness htype
          · split
            · next htype =>
                refine .bind careful_next fun _ _ => ?_
                exact ih.arguments name _ hname (hstate.separate ((hfront _ rfl).witness htype))
            · refine .bind ih.value fun v hv => ?_
              split
              · exact ih.arguments name _ hname (hstate.push (hv _ rfl).tokens)
              · exact ih.arguments name _ hname hstate
      · rw [Read.variableUse]
        refine .bind (careful_scan (Scan.careful_consumeDelim _ _)) fun dollar hdollar => ?_
        refine .bind (careful_scan (Scan.careful_consume _ _)) fun name hname => ?_
        refine .bind (careful_peek _) fun offset _ => .bind (careful_peek _) fun operator _ => ?_
        split
        · split
          · refine .bind careful_skipWhitespace fun _ _ => .bind careful_next fun _ _ => ?_
            refine .bind ih.valueList fun values hvalues => ?_
            refine .bind (careful_updateScopes fun s hs => hs.setVariable _ hvalues) fun _ _ => ?_
            refine .bind (careful_look _) fun depth _ => .bind (careful_record _) fun _ _ => .pure ?_
            exact fun v hv => by cases hv
          · exact careful_resolve hdollar hname.1
        · exact careful_resolve hdollar hname.1
      · rw [Read.valueList]
        refine .bind (careful_peek _) fun length _ => .bind (careful_skipInline _) fun _ _ => ?_
        exact ih.collect careful_definitionEnd [] (List.forall_mem_nil _)

/-! ## Mixins -/

end Read

section Instances

variable {P : Token → Prop} {bound : Bindings (List Value)}

/-- Putting sound arguments in the place of references keeps a value sound. -/
theorem Value.AllTokens.instantiate (hbound : ∀ e ∈ bound, ∀ v ∈ e.2, v.AllTokens P) {v : Value}
    (h : v.AllTokens P) :
    ∀ u ∈ v.instantiate bound, u.AllTokens P := by
  have hall {vs : List Value} (ih : ∀ v ∈ vs, ∀ u ∈ v.instantiate bound, u.AllTokens P) :
      ∀ u ∈ instantiateAll bound vs, u.AllTokens P := by
    intro u hu
    obtain ⟨v, hv, hu⟩ := mem_instantiateAll hu
    exact ih v hv u hu
  induction h with
  | token ht =>
      rw [Value.instantiate]
      exact List.forall_mem_singleton.mpr (.token ht)
  | block hopener _ hcloser ih =>
      rw [Value.instantiate]
      exact List.forall_mem_singleton.mpr (.block hopener (hall ih) hcloser)
  | call hname _ hcommas hcloser ih =>
      rw [Value.instantiate]
      refine List.forall_mem_singleton.mpr (.call hname (fun arg harg => ?_) hcommas hcloser)
      obtain ⟨vs, hvs, rfl⟩ := mem_instantiateArguments harg
      exact hall (ih vs hvs)
  | reference hdollar hname =>
      rw [Value.instantiate]
      split
      · next hfind => exact hbound _ (Bindings.mem_of_find? hfind)
      · exact List.forall_mem_singleton.mpr (.reference hdollar hname)

theorem sound_bindArguments (mixin : String) {ps : List Parameter}
    (hps : ∀ p ∈ ps, ∀ vs ∈ p.fallback, ∀ v ∈ vs, v.AllTokens P) :
    ∀ {args : List (List Value)} {bound : Bindings (List Value)},
      (∀ arg ∈ args, ∀ v ∈ arg, v.AllTokens P) → (∀ e ∈ bound, ∀ v ∈ e.2, v.AllTokens P) →
      (∀ found, bindArguments mixin ps args bound = .ok found →
        ∀ e ∈ found, ∀ v ∈ e.2, v.AllTokens P) ∧
      ∀ cause, bindArguments mixin ps args bound = .error cause → cause.isGenuine = true := by
  induction ps with
  | nil =>
      intro args bound _ hbound
      refine ⟨?_, fun cause h => (by cases h)⟩
      rintro _ ⟨rfl⟩
      exact hbound
  | cons p ps ih =>
      intro args bound hargs hbound
      obtain ⟨hp, hps⟩ := List.forall_mem_cons.mp hps
      have htail : ∀ arg ∈ args.tail, ∀ v ∈ arg, v.AllTokens P :=
        fun arg harg => hargs arg (List.mem_of_mem_tail harg)
      have hset {vs : List Value} (hvs : ∀ v ∈ vs, v.AllTokens P) :
          ∀ e ∈ bound.set p.name vs, ∀ v ∈ e.2, v.AllTokens P := by
        intro e he
        rcases Bindings.of_mem_set he with rfl | he
        · exact hvs
        · exact hbound e he
      have hhead : ∀ v ∈ trimWhitespace (args.headD []), v.AllTokens P := by
        intro v hv
        have hv := mem_of_mem_trimWhitespace hv
        cases args with
        | nil => cases hv
        | cons arg rest => exact hargs arg List.mem_cons_self v hv
      rw [bindArguments]
      split
      · refine ⟨fun found h => (by cases h), ?_⟩
        rintro _ ⟨rfl⟩
        rfl
      · next hfallback => exact ih hps htail (hset (hp _ hfallback))
      · exact ih hps htail (hset hhead)

/-- An instance of a sound mixin is sound. -/
theorem Mixin.Sound.instantiate {m : Mixin} (hm : m.Sound P) (name : String)
    {args : List (List Value)} (hargs : ∀ arg ∈ args, ∀ v ∈ arg, v.AllTokens P) :
    (∀ body, m.instantiate name args = .ok body → ∀ v ∈ body, v.AllTokens P) ∧
      ∀ cause, m.instantiate name args = .error cause → cause.isGenuine = true := by
  have hnone : ∀ e ∈ ([] : Bindings (List Value)), ∀ v ∈ e.2, v.AllTokens P := nofun
  obtain ⟨hbound, hcause⟩ := sound_bindArguments name hm.fallbacks hargs hnone
  unfold Mixin.instantiate
  dsimp only
  split
  · refine ⟨fun body h => (by cases h), ?_⟩
    rintro _ ⟨rfl⟩
    rfl
  · cases hfound : bindArguments name m.parameterList args [] with
    | error cause =>
        refine ⟨fun body h => (by cases h), ?_⟩
        rintro _ ⟨rfl⟩
        exact hcause cause hfound
    | ok bound =>
        refine ⟨?_, fun cause h => (by cases h)⟩
        rintro _ ⟨rfl⟩ u hu
        obtain ⟨v, hv, hu⟩ := mem_instantiateAll hu
        exact (hm.body v hv).instantiate (hbound bound hfound) u hu

end Instances

namespace Read

variable {α β : Type} {P : Token → Prop} {r : Reader}

theorem careful_fallbackEnd :
    EndsCareful P fallbackEnd fun vs => ∀ v ∈ vs, v.AllTokens P := by
  intro read hread
  unfold fallbackEnd
  refine .bind (careful_peek _) fun front _ => ?_
  split
  · exact .some hread.trimmed.tokens
  · split
    · exact .some hread.trimmed.tokens
    · exact .none

/-- The defaults of the parameters are made of tokens with `P`. -/
def FallbacksSound (P : Token → Prop) (ps : List Parameter) : Prop :=
  ∀ p ∈ ps, ∀ vs ∈ p.fallback, ∀ v ∈ vs, v.AllTokens P

theorem careful_parameters (mixin : Token) :
    ∀ (n : Nat) (seenDefault : Bool) (read : List Parameter), FallbacksSound P read →
      Careful P (parameters mixin n seenDefault read) (FallbacksSound P)
  | 0, _, _, _ => careful_exhausted
  | n + 1, seenDefault, read, hread => by
      have hmore (name : Token) {fallback : Option (List Value)}
          (hfallback : ∀ vs ∈ fallback, ∀ v ∈ vs, v.AllTokens P) (hasDefault : Bool) :
          Careful P (do
            skipWhitespace
            if ← peek (·.check 0 .comma) then
              let _ ← next
              parameters mixin n (seenDefault || hasDefault) (⟨name.text, name, fallback⟩ :: read)
            else if ← peek (·.check 0 .closeParen) then
              parameters mixin n (seenDefault || hasDefault) (⟨name.text, name, fallback⟩ :: read)
            else
              failAt 0 .parameterSeparator) (FallbacksSound P) := by
        have hread : FallbacksSound P (⟨name.text, name, fallback⟩ :: read) :=
          List.forall_mem_cons.mpr ⟨hfallback, hread⟩
        refine .bind careful_skipWhitespace fun _ _ => .bind (careful_peek _) fun comma _ => ?_
        split
        · exact .bind careful_next fun _ _ => careful_parameters mixin n _ _ hread
        · refine .bind (careful_peek _) fun closed _ => ?_
          split
          · exact careful_parameters mixin n _ _ hread
          · exact careful_failAt 0 rfl
      rw [parameters]
      refine .bind careful_skipWhitespace fun _ _ => .bind (careful_peek _) fun atEnd _ => ?_
      split
      · exact careful_failAt 0 rfl
      · refine .bind (careful_peek _) fun closed _ => ?_
        split
        · exact .bind careful_next fun _ _ => .pure fun p hp => hread p (List.mem_reverse.mp hp)
        · refine .bind (careful_scan (Scan.careful_consumeDelim _ _)) fun dollar _ => ?_
          refine .bind (careful_scan (Scan.careful_consume _ _)) fun name hname => ?_
          refine .bind careful_skipWhitespace fun _ _ => .bind (careful_peek _) fun hasDefault _ => ?_
          dsimp only
          split
          · refine .bind careful_next fun _ _ => ?_
            refine .bind ((carefulValues n).collect careful_fallbackEnd [] (List.forall_mem_nil _)) fun values hvalues => ?_
            refine .bind (.some (R := fun vs => ∀ v ∈ vs, v.AllTokens P) hvalues) fun fallback
              hfallback => ?_
            exact hmore name hfallback hasDefault
          · split
            · exact .bind (careful_fail (Diagnostic.sound_atToken rfl hname.1)) fun fallback
                hfallback => hmore name hfallback hasDefault
            · exact .bind .none fun fallback hfallback => hmore name hfallback hasDefault

theorem careful_mixinHead (n : Nat) :
    Careful P (mixinHead n) fun head => P head.1 ∧ FallbacksSound P (head.2.getD []) := by
  unfold mixinHead
  refine .bind (careful_peekToken 0) fun front hfront => ?_
  split
  · split
    · exact .bind careful_next fun _ _ => .pure ⟨hfront _ rfl, List.forall_mem_nil _⟩
    · split
      · refine .bind careful_next fun _ _ => ?_
        refine .bind (careful_parameters _ n false [] (List.forall_mem_nil _)) fun ps hps => ?_
        exact .pure ⟨hfront _ rfl, hps⟩
      · exact careful_failAt 0 rfl
  · exact careful_failAt 0 rfl

theorem careful_defineMixin (n : Nat) :
    Careful P (defineMixin n) fun _ => True := by
  unfold defineMixin
  refine .bind careful_skipWhitespace fun _ _ => .bind (careful_mixinHead n) fun head hhead => ?_
  obtain ⟨name, ps⟩ := head
  let binding (body : List Value) : Read Unit := do
    updateScopes (·.setMixin name.text ⟨ps, body⟩)
    record (.mixinDefined name.text ((ps.getD []).map (·.name)).length name.position.line)
  have hbinding {x : Read (List Value)} (hx : Careful P x fun body => ∀ v ∈ body, v.AllTokens P) :
      Careful P (x >>= binding) fun _ => True :=
    .bind hx fun body hbody =>
      .bind (careful_updateScopes fun s hs => hs.setMixin _ ⟨hbody, hhead.2⟩)
        fun _ _ => careful_record _
  have hfail := hbinding (careful_failAt 0 (show (Cause.mixinBody name.text).isGenuine = true from rfl))
  refine .bind careful_skipWhitespace fun _ _ => .front fun r hr => ?_
  cases hfront : r.cursor.peek 0 with
  | none => exact hfail r hr
  | some v =>
      have hv := (hr.cursor.peek hfront).tokens
      cases v with
      | call => exact hfail r hr
      | reference => exact hfail r hr
      | block opener contents closer =>
          cases hv with
          | block _ hcontents _ =>
              dsimp only
              split
              · exact Careful.bind careful_next (fun _ _ => hbinding (.pure hcontents)) r hr
              · exact hfail r hr
      | token t =>
          dsimp only
          split
          · next hbrace =>
              have hpeek : r.cursor.peekToken 0 = some t := by simp [Cursor.peekToken, hfront]
              have hopener : t.type.isOpener = true := by
                rw [hbrace]
                rfl
              refine bind_safe (capturing_safe hr _ fun s hs hcursor =>
                (carefulValues n).block hs (hcursor ▸ hpeek) hopener) ?_
              rintro ⟨opener, contents, closer⟩ s hs hb
              cases hb with
              | block _ hcontents _ => exact hbinding (.pure hcontents) s hs
          · exact hfail r hr

theorem careful_instantiate {name : Token} (hname : P name) {args : List (List Value)}
    (hargs : ∀ arg ∈ args, ∀ v ∈ arg, v.AllTokens P) :
    Careful P (instantiate name args) fun body => ∀ v ∈ body, v.AllTokens P := by
  unfold instantiate
  refine .bind careful_lookScopes fun scopes hscopes => ?_
  split
  · exact careful_fail (Diagnostic.sound_atToken rfl hname)
  · next hfind =>
      obtain ⟨hbody, hcause⟩ := (hscopes.findMixin? hfind).instantiate name.text hargs
      split
      · next hok => exact .pure (hbody _ hok)
      · next herror => exact careful_fail (Diagnostic.sound_atToken (hcause _ herror) hname)

/-- The instances are made of tokens with `P`. -/
def InstancesSound (P : Token → Prop) (found : List (String × List Value)) : Prop :=
  ∀ e ∈ found, ∀ v ∈ e.2, v.AllTokens P

theorem careful_targets :
    ∀ (n : Nat) (read : List (String × List Value)), InstancesSound P read →
      Careful P (targets n read) (InstancesSound P)
  | 0, _, _ => careful_exhausted
  | n + 1, read, hread => by
      have hmore {name : Token} {args : List (List Value)} (hname : P name)
          (hargs : ∀ arg ∈ args, ∀ v ∈ arg, v.AllTokens P) :
          Careful P (do
            let body ← instantiate name args
            targets n ((name.text, body) :: read)) (InstancesSound P) :=
        .bind (careful_instantiate hname hargs) fun body hbody =>
          careful_targets n _ (List.forall_mem_cons.mpr ⟨hbody, hread⟩)
      rw [targets]
      refine .bind careful_skipWhitespace fun _ _ => .bind careful_peekFront fun front hfront => ?_
      split
      · exact .pure hread
      · split
        · exact .bind careful_next fun _ _ => .pure hread
        · split
          · exact .bind careful_next fun _ _ => careful_targets n read hread
          · split
            · exact .bind careful_next fun _ _ => hmore (hfront _ rfl).of_token (List.forall_mem_nil _)
            · split
              · refine .bind (carefulValues n).call fun c hc => ?_
                obtain ⟨name, args, commas, closer⟩ := c
                cases hc with
                | call hname hargs => exact hmore hname hargs
              · exact careful_failAt 0 rfl
      · cases hfront _ rfl with
        | call hname hargs => exact .bind careful_next fun _ _ => hmore hname hargs
      · exact careful_failAt 0 rfl

theorem careful_expand :
    ∀ {found : List (String × List Value)}, InstancesSound P found →
      Careful P (expand found) fun _ => True
  | [], _ => .pure trivial
  | (name, body) :: rest, hfound => by
      obtain ⟨hbody, hrest⟩ := List.forall_mem_cons.mp hfound
      rw [expand]
      refine .bind (careful_spliceExpansion name hbody) fun _ _ => ?_
      exact .bind (careful_peek _) fun _ _ => .bind (careful_record _) fun _ _ => careful_expand hrest

theorem careful_includeMixins (n : Nat) {keyword : Token} (hkeyword : P keyword) :
    Careful P (includeMixins n keyword) fun _ => True := by
  unfold includeMixins
  refine .bind (careful_targets n [] (List.forall_mem_nil _)) fun reversed hreversed => ?_
  split
  · exact careful_fail (Diagnostic.sound_atToken rfl hkeyword)
  · refine .bind (careful_look _) fun limit _ => .bind (careful_peek _) fun depth _ => ?_
    split
    · exact careful_fail (Diagnostic.sound_atToken rfl hkeyword)
    · exact careful_expand hreversed

/-! ## Rules -/

/-- The prelude of the rule is grouped, and its block, if it has one, is made of tokens with `P`. -/
structure AtRuleSound (P : Token → Prop) (rule : AtRule) : Prop where
  prelude : AllSound P rule.prelude
  block : ∀ b ∈ rule.block, b.toValue.AllTokens P

/-- The prelude of the rule is grouped, and its block is one in braces. -/
structure QualifiedSound (P : Token → Prop) (rule : QualifiedRule) : Prop where
  prelude : AllSound P rule.prelude
  block : rule.block.toValue.AllTokens P
  braced : rule.block.isBraced = true

/-- The rule is sound. -/
def RuleSound (P : Token → Prop) : Rule → Prop
  | .atRule rule => AtRuleSound P rule
  | .qualified rule => QualifiedSound P rule

theorem careful_expandAlias (hP : AliasClosed P) {name : Token} (hname : P name)
    {values : List Value} (hvalues : ∀ v ∈ values, v.AllTokens P) :
    Careful P (expandAlias name values) fun _ => True := by
  unfold expandAlias
  refine .bind (careful_splice ?_) fun _ _ => careful_record _
  refine List.forall_mem_cons.mpr ⟨.token (hP.keyword hname), ?_⟩
  exact List.forall_mem_cons.mpr ⟨.token (hP.blank hname), hvalues⟩

/-- Where a brace stands in front, the block behind it is read as it stands. -/
theorem braces_safe {t : Token} {f : Block → β} {R : β → Prop} (hr : r.Sound P)
    (hfront : r.cursor.peek 0 = some (.token t)) (hbrace : t.type = .openBrace)
    (hR : ∀ b, b.toValue.AllTokens P → b.isBraced = true → R (f b)) :
    Safe P (fun found => ∀ b, found = some b → R b)
      ((do let b ← scan Scan.rawBlock; return some (f b) : Read (Option β)) r) := by
  have hpeek : r.cursor.peekToken 0 = some t := by simp [Cursor.peekToken, hfront]
  have hopener : t.type.isOpener = true := by
    rw [hbrace]
    rfl
  refine bind_safe (scan_safe hr (Scan.rawBlock_safe hr.cursor hpeek hopener)) ?_
  rintro b s hs ⟨rfl, hb⟩
  refine ⟨hs, ?_⟩
  rintro _ ⟨rfl⟩
  exact hR b hb (by simp [Block.isBraced, hbrace])

theorem careful_atRuleEnd (name : Token) :
    EndsCareful P (atRuleEnd name) (AtRuleSound P) := by
  intro read hread
  unfold atRuleEnd
  refine .front fun r hr => ?_
  have hnone : Careful P (Pure.pure none : Read (Option AtRule))
      fun found => ∀ rule, found = some rule → AtRuleSound P rule := .none
  have hplain : AtRuleSound P ⟨name, trimWhitespace read.reverse, none⟩ :=
    ⟨hread.trimmed, fun b hb => by cases hb⟩
  cases hfront : r.cursor.peek 0 with
  | none => exact Careful.some hplain r hr
  | some v =>
      have hv := (hr.cursor.peek hfront).tokens
      cases v with
      | call => exact hnone r hr
      | reference => exact hnone r hr
      | block opener contents closer =>
          dsimp only
          split
          · refine Careful.bind careful_next (fun _ _ => .some ⟨hread.trimmed, ?_⟩) r hr
            rintro _ ⟨rfl⟩
            exact hv
          · exact hnone r hr
      | token t =>
          dsimp only
          split
          · exact Careful.bind careful_next (fun _ _ => .some hplain) r hr
          · split
            · next hbrace =>
                refine braces_safe hr hfront hbrace fun b hb _ => ⟨hread.trimmed, ?_⟩
                rintro _ ⟨rfl⟩
                exact hb
            · exact hnone r hr

theorem careful_qualifiedEnd :
    EndsCareful P qualifiedEnd (QualifiedSound P) := by
  intro read hread
  unfold qualifiedEnd
  refine .front fun r hr => ?_
  have hnone : Careful P (Pure.pure none : Read (Option QualifiedRule))
      fun found => ∀ rule, found = some rule → QualifiedSound P rule := .none
  cases hfront : r.cursor.peek 0 with
  | none => exact careful_failAt 0 rfl r hr
  | some v =>
      have hv := (hr.cursor.peek hfront).tokens
      cases v with
      | call => exact hnone r hr
      | reference => exact hnone r hr
      | block opener contents closer =>
          dsimp only
          split
          · next hbrace =>
              refine Careful.bind careful_next (fun _ _ => .some ⟨hread.trimmed, hv, ?_⟩) r hr
              simp [Block.isBraced, hbrace]
          · exact hnone r hr
      | token t =>
          dsimp only
          split
          · next hbrace =>
              exact braces_safe hr hfront hbrace fun b hb hbraced => ⟨hread.trimmed, hb, hbraced⟩
          · exact hnone r hr

/-- A rule that leaves nothing, or a sound one. -/
abbrev CarefulAtRule (P : Token → Prop) (x : Read (Option AtRule)) : Prop :=
  Careful P x fun found => ∀ rule, found = some rule → AtRuleSound P rule

theorem careful_aliasOrRule (hP : AliasClosed P) (n : Nat) {name : Token} (hname : P name) :
    CarefulAtRule P (aliasOrRule n name) := by
  have hrule : CarefulAtRule P (do return some (← collect n (atRuleEnd name) [])) :=
    .bind ((carefulValues n).collect (careful_atRuleEnd name) [] (List.forall_mem_nil _)) fun _ hrule => .some hrule
  unfold aliasOrRule
  split
  · refine .bind (careful_peek _) fun offset _ => .bind (careful_peek _) fun defines _ => ?_
    split
    · refine .bind careful_skipWhitespace fun _ _ => .bind careful_next fun _ _ => ?_
      refine .bind (carefulValues n).valueList fun values hvalues => ?_
      refine .bind (careful_updateScopes fun s hs => hs.setAlias _ hvalues) fun _ _ => ?_
      exact .bind (careful_record _) fun _ _ => .none
    · refine .bind careful_lookScopes fun scopes hscopes => ?_
      split
      · next hfind =>
          refine .bind (careful_expandAlias hP hname (hscopes.findAlias? hfind)) fun _ _ => .none
      · exact hrule
  · exact hrule

theorem careful_atRule (hP : AliasClosed P) (n : Nat) :
    CarefulAtRule P (atRule n) := by
  unfold atRule
  refine .bind (careful_scan (Scan.careful_consume _ _)) fun name hname => ?_
  dsimp only
  split
  · exact .bind (careful_defineMixin n) fun _ _ => .none
  · split
    · exact .bind (careful_includeMixins n hname.1) fun _ _ => .none
    · exact careful_aliasOrRule hP n hname.1

theorem careful_qualifiedRule (n : Nat) :
    Careful P (qualifiedRule n) (QualifiedSound P) :=
  (carefulValues n).collect careful_qualifiedEnd [] (List.forall_mem_nil _)

theorem careful_nextRule (hP : AliasClosed P) :
    ∀ n : Nat, Careful P (nextRule n) fun found => ∀ rule, found = some rule → RuleSound P rule
  | 0 => careful_exhausted
  | n + 1 => by
      have hqualified : Careful P (do return some (.qualified (← qualifiedRule n)))
          fun found => ∀ rule, found = some rule → RuleSound P rule :=
        .bind (careful_qualifiedRule n) fun _ hrule => .some hrule
      rw [nextRule]
      refine .bind careful_skipWhitespace fun _ _ => .bind (careful_peek _) fun front _ => ?_
      split
      · exact .none
      · split
        · split
          · exact .bind careful_next fun _ _ => careful_nextRule hP n
          · split
            · refine .bind (careful_atRule hP n) fun found hfound => ?_
              split
              · exact .some (hfound _ rfl)
              · exact careful_nextRule hP n
            · refine .bind (careful_peek _) fun isStart _ => ?_
              split
              · exact .bind (carefulValues n).variableUse fun _ _ => careful_nextRule hP n
              · exact hqualified
        · exact hqualified

end Read
end Cascade

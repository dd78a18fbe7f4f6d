import Cascade.Proofs.FollowingRules
import Cascade.Sheet.Parser
import Mathlib

/-!
# Later text and earlier rules

A stylesheet is read statement by statement, and a rule is resolved as soon as it has been
read.  So what follows a token list should change neither the rules that are read from the
list nor the scopes that its definitions lead to, as long as each of its statements ends
by itself.

**Method.**  `Stage` is the state of reading between two statements and `Step` is what
one statement does to it.  The loops of the reader are runs of such steps
(`Step.finish_eq`).  A step that leaves the sentinel unread is a step before any other
items too (`Step.abreast`), and so is a run (`Comes.abreast`).

**Results.**
* `ruleList_append`: the rules and the scopes are the same whatever follows, unless that
  makes a definition of a name that the list ends with.
* `scopes_lost_before_colon`: such a name is looked past, also where a line feed has ended
  the definition that it stands in.
-/

namespace Cascade
namespace Read

open Reader (Abreast BothAt Drained Spent Lost)

variable {α β : Type} {us : List Item} {P : Reader → Prop} {r s t u : Reader} {v : Value}

/-! ## Statements -/

/-- One statement of a rule list: its rule, or none where it leaves none.  It stops where nothing is
left to read. -/
def statement (n : Nat) : Read (Option Rule) := do
  skipWhitespace
  match ← peek (·.peek 0) with
  | none => exhausted
  | some v =>
    match v with
    | .token t =>
      if t.type = .cdo ∨ t.type = .cdc then
        let _ ← next
        return none
      else if t.type = .atKeyword then
        return (← atRule n).map .atRule
      else if ← isVariableStart then
        let _ ← variableUse n
        return none
      else
        return some (.qualified (← qualifiedRule n))
    | _ => return some (.qualified (← qualifiedRule n))

/-- The next rule is that of the next statement which leaves one. -/
theorem nextRule_of_statement {n : Nat} {found : Option Rule} (h : statement n r = .ok found t) :
    nextRule (n + 1) r =
      match found with
      | some rule => .ok (some rule) t
      | none => nextRule n t := by
  have hskip : skipWhitespace r = .ok () r.skipped := rfl
  obtain ⟨v, hv⟩ : ∃ v, r.skipped.cursor.peek 0 = some v := by
    cases hpeek : r.skipped.cursor.peek 0 with
    | some v => exact ⟨v, rfl⟩
    | none =>
        rw [statement, bind_ok hskip, bind_ok (peek_run _ _), hpeek] at h
        cases h
  have hloop : nextRule (n + 1) r = (do
      match ← statement n with
      | some rule => return some rule
      | none => nextRule n : Read (Option Rule)) r := by
    rw [nextRule, statement, bind_assoc, bind_ok hskip, bind_ok hskip, bind_assoc,
      bind_ok (peek_run _ _), bind_ok (peek_run _ _), hv]
    cases v with
    | token t =>
        dsimp only
        split
        · simp only [bind_assoc, pure_bind]
        split
        · simp only [bind_assoc, pure_bind]
          refine congrFun (bind_congr fun rule => ?_) r.skipped
          cases rule with
          | none => rfl
          | some rule => rfl
        · rw [bind_assoc]
          refine congrFun (bind_congr fun start => ?_) r.skipped
          split
          · simp only [bind_assoc, pure_bind]
          · simp only [bind_assoc, pure_bind]
    | _ => simp only [bind_assoc, pure_bind]
  rw [hloop, bind_ok h]
  cases found with
  | some rule => rfl
  | none => rfl

theorem lands_statement (n : Nat) (h : r.Spent) :
    Lands Lost (statement n r) := by
  unfold statement
  refine .skip h (.peek ?_)
  rcases h.cases with hdrained | hpeek
  · rw [hdrained.peek]
    trivial
  · have hstart : isVariableStart r = .ok false r := by
      simp only [isVariableStart, peek_run, Cursor.checkDelim, hpeek]
      rfl
    rw [hpeek]
    change Lands Lost ((isVariableStart >>= fun start =>
      if start = true then do
        let _ ← variableUse n
        return none
      else do
        return some (Rule.qualified (← qualifiedRule n))) r)
    rw [bind_ok hstart]
    refine ((lands_values [] n).collect stops_qualifiedEnd h).bind fun rule t ht => ?_
    exact ht.lost

/-- A lone dollar sign before the sentinel is read as it stands. -/
theorem lands_value_dollar {t : Token} (hpeek : r.cursor.peek 0 = some (.token t))
    (ht : t.isDelim "$" = true)
    (hstart : (r.cursor.checkDelim 0 "$" && r.cursor.check 1 .ident) = false)
    (hnext : Lands Spent (next r)) (n : Nat) :
    Lands Spent (value n r) := by
  cases n with
  | zero =>
      rw [value_zero]
      trivial
  | succ n =>
      have hplain : t.type.isOpener = false ∧ t.type ≠ .function := by
        rw [(Token.isDelim_iff.mp ht).1]
        exact ⟨rfl, by decide⟩
      rw [value_of_plain hpeek hplain.1 hplain.2 hstart]
      exact hnext

/-- A lone dollar sign starts a rule, whose prelude goes on to the sentinel. -/
theorem lands_qualifiedRule {t : Token} (hpeek : r.cursor.peek 0 = some (.token t))
    (ht : t.isDelim "$" = true)
    (hstart : (r.cursor.checkDelim 0 "$" && r.cursor.check 1 .ident) = false)
    (hnext : Lands Spent (next r)) (n : Nat) :
    Lands Drained (qualifiedRule n r) := by
  have hend : qualifiedEnd [] r = .ok none r := by
    unfold qualifiedEnd
    rw [bind_ok (peek_run _ r), hpeek]
    simp only [(Token.isDelim_iff.mp ht).1]
    rfl
  cases n with
  | zero =>
      rw [qualifiedRule, collect_zero]
      trivial
  | succ n =>
      rw [qualifiedRule, collect, bind_ok hend]
      refine (lands_value_dollar hpeek ht hstart hnext n).bind fun found t ht => ?_
      cases found with
      | some v => exact (lands_values [] n).collect stops_qualifiedEnd ht
      | none => exact (lands_values [] n).collect stops_qualifiedEnd ht

theorem parallel_statement (hus : Item.Silent us) (h : Abreast us r s) (n : Nat) :
    Parallel us Lost (statement n r) (statement n s) := by
  have hlands (t : Reader) (ht : t.Spent) : Lands Lost (statement n t) := lands_statement n ht
  have hqualified {t u : Reader} (h : Abreast us t u) :
      Parallel us Lost
        ((do return some (.qualified (← qualifiedRule n)) : Read (Option Rule)) t)
        ((do return some (.qualified (← qualifiedRule n)) : Read (Option Rule)) u) := by
    refine (parallel_qualifiedRule hus h n).bind (fun rule t u h => ?_) fun rule t ht => ht.lost
    exact .pure h _
  unfold statement at hlands ⊢
  refine .skip h (fun v t u hfront => .peek ?_) hlands
  simp only [hfront.left, hfront.right]
  cases v with
  | token o =>
      dsimp only
      split
      · refine (parallel_next hfront).bind_sure fun _ t u h => ?_
        exact .pure h _
      split
      · refine (parallel_atRule hus hfront.abreast n).bind (fun rule t u h => ?_) fun rule t ht => ht
        exact .pure h _
      refine .peek ?_
      rcases isVariableStart_cases hfront with hstart | ⟨hdollar, hstart, hnext⟩
      · rw [hstart]
        split
        · refine ((parallel_values hus n).variableUse hfront.abreast).bind (fun _ t u h => ?_)
            fun _ t ht => ht.lost
          exact .pure h _
        · exact hqualified hfront.abreast
      · rw [hstart]
        refine .of_lands ?_
        refine (lands_qualifiedRule hfront.left hdollar hstart hnext n).bind fun rule t ht => ?_
        exact ht.lost
  | _ => exact hqualified hfront.abreast

/-! ## Bodies -/

/-- The computation does not depend on what is left to read, and leaves it as it is. -/
def Apart (x : Read α) : Prop :=
  ∀ ⦃r t : Reader⦄ ⦃a : α⦄, x r = .ok a t → ∀ items : List Item,
    t.cursor = r.cursor ∧ x (r.withItems items) = .ok a (t.withItems items)

theorem Apart.pure (a : α) :
    Apart (Pure.pure a) := by
  rintro r t _ ⟨⟩ items
  exact ⟨rfl, rfl⟩

theorem Apart.bind {x : Read α} {f : α → Read β} (hx : Apart x) (hf : ∀ a, Apart (f a)) :
    Apart (x >>= f) := by
  intro r t b h items
  obtain ⟨a, s, hrun, hrun'⟩ := ok_of_bind h
  obtain ⟨hcursor, hitems⟩ := hx hrun items
  obtain ⟨hcursor', hitems'⟩ := hf a hrun' items
  exact ⟨hcursor'.trans hcursor, (bind_ok hitems).trans hitems'⟩

theorem Apart.within (vs : List Value) (x : Read α) :
    Apart (within vs x) := by
  intro r t a h items
  rw [within_run] at h ⊢
  obtain ⟨s, hrun, rfl⟩ := ok_of_andFinally h
  have hrun' := andFinally_ok (g := fun s => { s with cursor := (r.withItems items).cursor }) hrun
  exact ⟨rfl, hrun'⟩

theorem apart_styleBlock (n : Nat) (b : Block) :
    Apart (styleBlock n b) := by
  cases n with
  | zero =>
      rw [styleBlock_zero]
      exact nofun
  | succ n =>
      rw [styleBlock]
      exact .within _ _

theorem apart_styleRule (n : Nat) (r : QualifiedRule) :
    Apart (styleRule n r) := by
  cases n with
  | zero =>
      rw [styleRule_zero]
      exact nofun
  | succ n =>
      rw [styleRule]
      cases Selector.parse r.prelude with
      | error d => rintro _ _ _ ⟨⟩
      | ok selectors => exact (apart_styleBlock n r.block).bind fun body => .pure _

theorem apart_resolveAtRule (n : Nat) (r : AtRule) (inStyle : Bool) :
    Apart (resolveAtRule n r inStyle) := by
  cases n with
  | zero =>
      rw [resolveAtRule_zero]
      exact nofun
  | succ n =>
      rw [resolveAtRule]
      cases r.block with
      | none => exact .pure _
      | some b =>
          dsimp only
          split
          · exact (Apart.within _ _).bind fun body => .pure _
          · exact (Apart.within _ _).bind fun body => .pure _
          · exact (apart_styleBlock n b).bind fun body => .pure _

/-- A rule with its body. -/
def resolveRule (n : Nat) : Rule → Read Entry
  | .qualified r => styleRule n r
  | .atRule r => resolveAtRule n r false

theorem apart_resolveRule (n : Nat) (rule : Rule) :
    Apart (resolveRule n rule) := by
  cases rule with
  | qualified r => exact apart_styleRule n r
  | atRule r => exact apart_resolveAtRule n r false

theorem Apart.abreast {x : Read α} {a : α} (hx : Apart x) (h : x r = .ok a t)
    (habreast : Abreast us r s) :
    ∃ u, x s = .ok a u ∧ Abreast us t u := by
  obtain ⟨l, hitems, rfl⟩ := habreast
  obtain ⟨hcursor, hrun⟩ := hx h (l ++ us)
  refine ⟨_, hrun, l, ?_, rfl⟩
  rw [hcursor]
  exact hitems

/-- A sequence goes on from the same outcome in the same way. -/
theorem bind_of_run {x y : Read α} {f : α → Read β} (h : x r = y s) :
    (x >>= f) r = (y >>= f) s := by
  cases hy : y s with
  | ok a t => rw [bind_ok hy, bind_ok (h.trans hy)]
  | error e t => rw [bind_error hy, bind_error (h.trans hy)]

end Read

/-! ## Stages -/

/-- How far the reading of a rule list has come: the budgets for the rules and for the statements up
to the next one, the entries read so far in reverse, and the reader. -/
structure Stage where
  outer : Nat
  inner : Nat
  read : List Entry
  reader : Reader

namespace Stage

open Reader (Abreast BothAt Drained Spent Lost)

variable {us tail : List Item} {st mid fin : Stage} {s : Reader}

/-- The start of a token list. -/
def start (budget : Nat) (limits : Limits) (ts : List Token) : Stage :=
  ⟨budget - 1, budget - 1, [], .ofTokens ts limits⟩

/-- The stage behind the next statement, if one is left and can be read. -/
def next (st : Stage) : Option Stage :=
  match st.inner with
  | 0 => none
  | k + 1 =>
    match Read.statement k st.reader with
    | .error _ _ => none
    | .ok none r => some { st with inner := k, reader := r }
    | .ok (some rule) r =>
      match st.outer with
      | 0 => none
      | n + 1 =>
        match Read.resolveRule (n + 1) rule r with
        | .error _ _ => none
        | .ok entry s => some ⟨n, n, entry :: st.read, s⟩

/-- What a statement does: it leaves nothing, or one entry. -/
inductive Step : Stage → Stage → Prop
  | silent {n k : Nat} {read : List Entry} {r s : Reader} :
      Read.statement k r = .ok none s → Step ⟨n, k + 1, read, r⟩ ⟨n, k, read, s⟩
  | rule {n k : Nat} {read : List Entry} {r s t : Reader} {rule : Rule} {entry : Entry} :
      Read.statement k r = .ok (some rule) s → Read.resolveRule (n + 1) rule s = .ok entry t →
      Step ⟨n + 1, k + 1, read, r⟩ ⟨n, n, entry :: read, t⟩

theorem next_eq_some_iff :
    st.next = some mid ↔ Step st mid := by
  constructor
  · obtain ⟨n, k, read, r⟩ := st
    intro h
    cases k with
    | zero => cases h
    | succ k =>
        simp only [next] at h
        split at h
        · cases h
        · next s hrun =>
            cases h
            exact .silent hrun
        · next rule s hrun =>
            cases n with
            | zero => cases h
            | succ n =>
                dsimp only at h
                split at h
                · cases h
                · next entry t hrun' =>
                    cases h
                    exact .rule hrun hrun'
  · rintro (hrun | ⟨hrun, hrun'⟩)
    · simp only [next, hrun]
    · simp only [next, hrun, hrun']

/-- The rest of the reading from a stage on. -/
def finish (st : Stage) : EStateM.Result Stop Reader (List Entry) :=
  (do
    match ← Read.nextRule st.inner with
    | none => return st.read.reverse
    | some rule =>
      let entry ← Read.resolveRule st.outer rule
      Read.ruleList st.outer (entry :: st.read) : Read (List Entry)) st.reader

theorem ruleList_succ (n : Nat) (read : List Entry) (r : Reader) :
    Read.ruleList (n + 1) read r = finish ⟨n, n, read, r⟩ := by
  rw [Read.ruleList, finish]
  refine congrFun (bind_congr fun found => ?_) r
  rcases found with _ | rule | rule
  all_goals rfl

/-- A statement does not change what the rest of the reading comes to. -/
theorem Step.finish_eq (h : Step st mid) :
    st.finish = mid.finish := by
  cases h with
  | silent hrun => exact Read.bind_of_run (Read.nextRule_of_statement hrun)
  | @rule n k read r s t rule entry hrun hrun' =>
      have hnext := Read.nextRule_of_statement hrun
      rw [← ruleList_succ]
      rw [finish, Read.bind_ok hnext]
      exact Read.bind_ok hrun'

/-- Reading goes on, statement by statement, from one stage to another, and the tail stays unread. -/
inductive Comes (tail : List Item) : Stage → Stage → Prop
  | refl {st : Stage} : Comes tail st st
  | step {st mid fin : Stage} : Step st mid → tail <:+ mid.reader.cursor.items →
      Comes tail mid fin → Comes tail st fin

theorem Comes.finish_eq (h : Comes tail st fin) :
    st.finish = fin.finish := by
  induction h with
  | refl => rfl
  | step hstep _ _ ih => exact hstep.finish_eq.trans ih

theorem not_lost_of_suffix {r : Reader} (h : [.value (.token sentinel)] <:+ r.cursor.items) :
    ¬ r.Lost := by
  obtain ⟨l, hl⟩ := h
  intro hlost
  exact hlost (by rw [← hl]; simp)

/-- Within so many statements that leave the sentinel unread, only whitespace is left before it. -/
def comesToSentinel : Nat → Stage → Bool
  | 0, _ => false
  | n + 1, st =>
    (match st.reader.cursor.rest.dropWhile Value.isWhitespace with
      | [.token t] => t == sentinel
      | _ => false) ||
    match st.next with
    | none => false
    | some mid =>
      (match mid.reader.cursor.items.getLast? with
        | some (.value (.token t)) => t == sentinel
        | _ => false) && comesToSentinel n mid

theorem exists_comes {n : Nat} (h : comesToSentinel n st = true) :
    ∃ fin, Comes [.value (.token sentinel)] st fin ∧
      fin.reader.cursor.rest.dropWhile Value.isWhitespace = [.token sentinel] := by
  induction n generalizing st with
  | zero => cases h
  | succ n ih =>
      rw [comesToSentinel, Bool.or_eq_true] at h
      rcases h with h | h
      · split at h
        · next t hrest =>
            obtain rfl : t = sentinel := by simpa using h
            exact ⟨st, .refl, hrest⟩
        · cases h
      · split at h
        · cases h
        · next mid hnext =>
            obtain ⟨hlast, h⟩ := Bool.and_eq_true_iff.mp h
            obtain ⟨fin, hcomes, hrest⟩ := ih h
            refine ⟨fin, .step (next_eq_some_iff.mp hnext) ?_ hcomes, hrest⟩
            split at hlast
            · next t hitems =>
                obtain rfl : t = sentinel := by simpa using hlast
                obtain ⟨l, hl⟩ := List.getLast?_eq_some_iff.mp hitems
                rw [hl]
                exact List.suffix_append l _
            · cases hlast

/-- A statement that leaves the sentinel unread is read in the same way before other items. -/
theorem Step.abreast (hus : Item.Silent us) (h : Step st mid)
    (hmid : [.value (.token sentinel)] <:+ mid.reader.cursor.items)
    (habreast : Abreast us st.reader s) :
    ∃ u, Step { st with reader := s } { mid with reader := u } ∧ Abreast us mid.reader u := by
  cases h with
  | @silent n k read r t hrun =>
      have hparallel := Read.parallel_statement hus habreast k
      rw [hrun] at hparallel
      generalize hrun' : Read.statement k s = o at hparallel
      cases hparallel with
      | lost hlost => exact (not_lost_of_suffix hmid hlost).elim
      | @abreast _ _ u htu => exact ⟨u, .silent hrun', htu⟩
  | @rule n k read r t w rule entry hrun hresolve =>
      have hparallel := Read.parallel_statement hus habreast k
      rw [hrun] at hparallel
      generalize hrun' : Read.statement k s = o at hparallel
      cases hparallel with
      | lost hlost =>
          have hcursor := (Read.apart_resolveRule (n + 1) rule hresolve []).1
          refine (not_lost_of_suffix hmid ?_).elim
          unfold Lost
          rw [show w.cursor = t.cursor from hcursor]
          exact hlost
      | @abreast _ _ u htu =>
          obtain ⟨x, hresolve', hwx⟩ := (Read.apart_resolveRule (n + 1) rule).abreast hresolve htu
          exact ⟨x, .rule hrun' hresolve', hwx⟩

theorem Comes.abreast (hus : Item.Silent us) (h : Comes [.value (.token sentinel)] st fin)
    (habreast : Abreast us st.reader s) :
    ∃ u, Comes us { st with reader := s } { fin with reader := u } ∧ Abreast us fin.reader u := by
  induction h generalizing s with
  | refl => exact ⟨s, .refl, habreast⟩
  | step hstep hmid _ ih =>
      obtain ⟨t, hstep', habreast'⟩ := hstep.abreast hus hmid habreast
      obtain ⟨u, hcomes, hend⟩ := ih habreast'
      refine ⟨u, .step hstep' ?_ hcomes, hend⟩
      obtain ⟨l, _, rfl⟩ := habreast'
      exact List.suffix_append l us

/-- From the sentinel no statement comes back to it. -/
theorem Step.lost (h : Step st mid) (hspent : st.reader.Spent) :
    mid.reader.Lost := by
  cases h with
  | @silent n k read r t hrun =>
      have hlands := Read.lands_statement k hspent
      rw [hrun] at hlands
      exact hlands
  | @rule n k read r t w rule entry hrun hresolve =>
      have hlands := Read.lands_statement k hspent
      rw [hrun] at hlands
      have hcursor := (Read.apart_resolveRule (n + 1) rule hresolve []).1
      unfold Lost
      rw [show w.cursor = t.cursor from hcursor]
      exact hlands

theorem Comes.eq_of_spent (h : Comes [.value (.token sentinel)] st fin) (hspent : st.reader.Spent) :
    fin = st := by
  cases h with
  | refl => rfl
  | step hstep hmid _ => exact (not_lost_of_suffix hmid (hstep.lost hspent)).elim

/-- The entries read so far stay in front. -/
theorem prefix_of_finish {entries : List Entry} {t : Reader} (h : st.finish = .ok entries t) :
    st.read.reverse <+: entries := by
  obtain ⟨n, k, read, r⟩ := st
  induction n generalizing k read r with
  | zero =>
      obtain ⟨found, s, _, h⟩ := Read.ok_of_bind h
      cases found with
      | none =>
          cases h
          exact List.prefix_refl _
      | some rule =>
          obtain ⟨entry, u, _, h⟩ := Read.ok_of_bind h
          rw [Read.ruleList_zero] at h
          cases h
  | succ n ih =>
      obtain ⟨found, s, _, h⟩ := Read.ok_of_bind h
      cases found with
      | none =>
          cases h
          exact List.prefix_refl _
      | some rule =>
          obtain ⟨entry, u, _, h⟩ := Read.ok_of_bind h
          rw [ruleList_succ] at h
          refine List.IsPrefix.trans ?_ (ih n (entry :: read) u h)
          rw [List.reverse_cons]
          exact List.prefix_append _ _

/-- Where only whitespace is left, the reading is at its end. -/
theorem finish_of_white {entries : List Entry} {t : Reader} (h : st.finish = .ok entries t)
    (hwhite : Item.White st.reader.cursor.items) :
    entries = st.read.reverse ∧ t.scopes = st.reader.scopes := by
  obtain ⟨n, k, read, r⟩ := st
  have hpeek : r.skipped.cursor.peek 0 = none := by
    change r.cursor.skipWhitespace.peek 0 = none
    rw [Cursor.peek_eq_getElem?, Cursor.rest_skipWhitespace]
    change (List.dropWhile Value.isWhitespace (r.cursor.items.filterMap Item.value?))[0]? = none
    rw [Item.white_iff.mp hwhite]
    rfl
  cases k with
  | zero => cases h
  | succ k =>
      have hskip : Read.skipWhitespace r = .ok () r.skipped := rfl
      have hnext : Read.nextRule (k + 1) r = .ok none r.skipped := by
        rw [Read.nextRule, Read.bind_ok hskip, Read.bind_ok (Read.peek_run _ _), hpeek]
        rfl
      rw [finish, Read.bind_ok hnext] at h
      cases h
      exact ⟨rfl, rfl⟩

end Stage

/-! ## Stylesheets -/

namespace Sheet

/-- The items of a token list. -/
def itemsOf (ts : List Token) : List Item :=
  (valuesOf ts).map .value

/-- The first token that is not whitespace makes a definition of a name before it. -/
def opensDefinition (ts : List Token) : Bool :=
  ((valuesOf ts).dropWhile Value.isWhitespace).head?.any Value.isDefinitionSign

/-- Every statement of the token list ends by itself: with a sentinel behind the list, reading comes
by whole statements to where nothing but whitespace is left before the sentinel. -/
def StatementsEnd (budget : Nat) (limits : Limits) (ts : List Token) : Prop :=
  ∃ st : Stage, Stage.Comes [.value (.token sentinel)] (.start budget limits (ts ++ [sentinel])) st ∧
    st.reader.cursor.rest.dropWhile Value.isWhitespace = [.token sentinel]

theorem filterMap_itemsOf (ts : List Token) :
    (itemsOf ts).filterMap Item.value? = valuesOf ts := by
  simp [itemsOf, List.filterMap_map, Function.comp_def, Item.value?]

theorem silent_itemsOf {ts : List Token} (h : opensDefinition ts = false) :
    Item.Silent (itemsOf ts) := by
  unfold Item.Silent
  rw [filterMap_itemsOf]
  intro v hv
  unfold opensDefinition at h
  rw [hv] at h
  exact h

theorem valuesOf_append (ts us : List Token) :
    valuesOf (ts ++ us) = valuesOf ts ++ valuesOf us := by
  simp [valuesOf]

theorem items_ofTokens (ts : List Token) (limits : Limits) :
    (Reader.ofTokens ts limits).cursor.items = itemsOf ts := by
  unfold Reader.ofTokens Cursor.ofTokens
  dsimp only
  split
  · rfl
  · rfl

/-- The readers of a token list with the sentinel and with other tokens behind it. -/
theorem abreast_ofTokens {ts : List Token} (hts : valuesOf ts ≠ []) (us : List Token)
    (limits : Limits) :
    Reader.Abreast (itemsOf us) (.ofTokens (ts ++ [sentinel]) limits) (.ofTokens (ts ++ us) limits) := by
  obtain ⟨v, vs, hvalues⟩ := List.exists_cons_of_ne_nil hts
  refine ⟨itemsOf ts, ?_, ?_⟩
  · rw [items_ofTokens, itemsOf, valuesOf_append]
    simp [itemsOf]
    rfl
  · simp [Reader.ofTokens, Cursor.ofTokens, Cursor.ofValues, Reader.withItems, valuesOf_append, hvalues, itemsOf]

/-- Where every statement ends by itself, all of them are read whatever follows, and leave the same. -/
theorem StatementsEnd.continued {budget : Nat} {limits : Limits} {ts : List Token}
    (h : StatementsEnd budget limits ts) :
    ∃ (st : Stage) (l : List Item), Item.White l ∧
      ∀ us, opensDefinition us = false → ∃ s : Reader,
        Stage.Comes (itemsOf us) (.start budget limits (ts ++ us)) { st with reader := s } ∧
        s.cursor.items = l ++ itemsOf us ∧ s.scopes = st.reader.scopes := by
  obtain ⟨st, hcomes, hrest⟩ := h
  by_cases hts : valuesOf ts = []
  · have hitems (us : List Token) : itemsOf (ts ++ us) = itemsOf us := by
      rw [itemsOf, valuesOf_append, hts, List.nil_append, itemsOf]
    have hspent : (Stage.start budget limits (ts ++ [sentinel])).reader.Spent := by
      refine .inr ⟨[], Item.blank_nil, ?_⟩
      change (Reader.ofTokens (ts ++ [sentinel]) limits).cursor.items = _
      rw [items_ofTokens, hitems]
      rfl
    obtain rfl := hcomes.eq_of_spent hspent
    refine ⟨.start budget limits (ts ++ [sentinel]), [], .of_blank Item.blank_nil, fun us _ => ?_⟩
    exact ⟨.ofTokens (ts ++ us) limits, .refl, (items_ofTokens _ _).trans (hitems us), rfl⟩
  · have hcontinued (us : List Token) (hus : opensDefinition us = false) :=
      hcomes.abreast (silent_itemsOf hus) (abreast_ofTokens hts us limits)
    obtain ⟨_, _, l, hitems, _⟩ := hcontinued [] rfl
    refine ⟨st, l, ?_, fun us hus => ?_⟩
    · have hvalues : st.reader.cursor.rest =
          l.filterMap Item.value? ++ [.token sentinel] := by
        rw [Cursor.rest, hitems, List.filterMap_append]
        rfl
      rw [hvalues, List.dropWhile_append] at hrest
      refine Item.white_iff.mpr ?_
      split at hrest
      · next hempty => exact List.isEmpty_iff.mp hempty
      · exact List.append_left_eq_self.mp hrest
    · obtain ⟨s, hcomes', l', hitems', rfl⟩ := hcontinued us hus
      obtain rfl : l' = l := List.append_cancel_right (hitems'.symm.trans hitems)
      exact ⟨_, hcomes', rfl, rfl⟩

/-- Later text does not affect earlier rules: where every statement of a token list ends by itself,
the rules and the scopes that it comes to are the same whatever follows, and the rules of a longer
list that can be read start with them.  What follows must not make a definition of a name at the end
of the list, which it would be looked at for. -/
theorem ruleList_append {budget : Nat} {limits : Limits} {ts us : List Token} {rules : List Entry}
    {final : Reader} (halone : Read.ruleList budget [] (.ofTokens ts limits) = .ok rules final)
    (hends : StatementsEnd budget limits ts) (hus : opensDefinition us = false) :
    ∃ st : Stage, Stage.Comes (itemsOf us) (.start budget limits (ts ++ us)) st ∧
      st.read.reverse = rules ∧ st.reader.scopes = final.scopes ∧
      (∃ blanks : List Value, (∀ v ∈ blanks, v.isWhitespace = true) ∧
        st.reader.cursor.rest = blanks ++ valuesOf us) ∧
      ∀ all, (run budget limits (ts ++ us)).1 = .ok all → rules <+: all := by
  obtain ⟨st, l, hl, hcontinued⟩ := hends.continued
  cases budget with
  | zero =>
      rw [Read.ruleList_zero] at halone
      cases halone
  | succ n =>
      -- Read alone, the list ends at the stage where its statements do.
      obtain ⟨s, hcomes, hitems, hscopes⟩ := hcontinued [] rfl
      have hfinish : (Stage.start (n + 1) limits (ts ++ [])).finish = .ok rules final := by
        rw [List.append_nil]
        exact (Stage.ruleList_succ n [] _).symm.trans halone
      rw [hcomes.finish_eq] at hfinish
      have hwhite : Item.White s.cursor.items := by
        rw [hitems]
        simpa [itemsOf, valuesOf] using hl
      obtain ⟨hrules, hfinal⟩ := Stage.finish_of_white hfinish hwhite
      obtain ⟨t, hcomes', hitems', hscopes'⟩ := hcontinued us hus
      refine ⟨_, hcomes', hrules.symm, ?_, ⟨l.filterMap Item.value?, hl, ?_⟩, ?_⟩
      · exact hscopes'.trans (hscopes.symm.trans hfinal.symm)
      · change t.cursor.items.filterMap Item.value? = _
        rw [hitems', List.filterMap_append, filterMap_itemsOf]
      · intro all hall
        unfold run at hall
        cases hlist : Read.ruleList (n + 1) [] (.ofTokens (ts ++ us) limits) with
        | error stop u =>
            rw [hlist] at hall
            cases hall
        | ok entries u =>
            rw [hlist] at hall
            cases hall
            rw [Stage.ruleList_succ] at hlist
            have hprefix := Stage.prefix_of_finish (hcomes'.finish_eq.symm.trans hlist)
            rw [hrules]
            exact hprefix

/-- A mixin and its inclusion between two values of a variable. -/
def redefinition : List Token :=
  tokenize "$c: red\n@mixin m \x7b a \x7b b: $c; \x7d \x7d @include m; $c: blue;"

def laterUse : List Token :=
  tokenize "a \x7b b: $c; \x7d"

/-- The rule from the mixin keeps the value that the variable had; the later one has the new one. -/
theorem ruleList_append_redefinition :
    ∃ rules final, Read.ruleList 100 [] (.ofTokens redefinition {}) = .ok rules final ∧
      StatementsEnd 100 {} redefinition ∧ opensDefinition laterUse = false ∧ rules.length = 1 ∧
      ∃ st : Stage, Stage.Comes (itemsOf laterUse) (.start 100 {} (redefinition ++ laterUse)) st ∧
        st.read.reverse = rules ∧ st.reader.scopes = final.scopes ∧
        (∃ blanks : List Value, (∀ v ∈ blanks, v.isWhitespace = true) ∧
          st.reader.cursor.rest = blanks ++ valuesOf laterUse) ∧
        ∀ all, (run 100 {} (redefinition ++ laterUse)).1 = .ok all → rules <+: all := by
  have hlength : ((Read.ruleList 100 []).run' (.ofTokens redefinition {})).map List.length =
      some 1 := by cbv
  have hends : StatementsEnd 100 {} redefinition :=
    Stage.exists_comes (n := 9) (by cbv)
  have hlater : opensDefinition laterUse = false := by cbv
  cases hrun : Read.ruleList 100 [] (.ofTokens redefinition {}) with
  | error stop r =>
      rw [EStateM.run', EStateM.run, hrun] at hlength
      cases hlength
  | ok rules final =>
      rw [EStateM.run', EStateM.run, hrun] at hlength
      exact ⟨rules, final, rfl, hends, hlater, Option.some.inj hlength,
        ruleList_append hrun hends hlater⟩

/-- A definition that ends at a line feed, right behind the name of a variable. -/
def endAtLineFeed : List Token :=
  tokenize "$b:1;$a:$b\n"

/-- A rule that starts with a colon. -/
def rootRule : List Token :=
  tokenize ":root\x7bc:$b\x7d"

/-- A colon behind the line feed that ends a definition takes the definition on: the variable `a` is
not bound where the rule starts, and the rule is not read as one. -/
theorem scopes_lost_before_colon :
    ∃ rules final, Read.ruleList 60 [] (.ofTokens endAtLineFeed {}) = .ok rules final ∧
      StatementsEnd 60 {} endAtLineFeed ∧ (run 60 {} (endAtLineFeed ++ rootRule)).1.isOk = true ∧
      ¬ ∃ st : Stage, Stage.Comes (itemsOf rootRule) (.start 60 {} (endAtLineFeed ++ rootRule)) st ∧
        st.reader.scopes = final.scopes := by
  have hfinal : (do
      let _ ← Read.ruleList 60 []
      return ((← get).scopes.findVariable? "a").isSome : Read Bool).run'
        (.ofTokens endAtLineFeed {}) = some true := by cbv
  have hends : StatementsEnd 60 {} endAtLineFeed :=
    Stage.exists_comes (n := 3) (by cbv)
  have hok : (run 60 {} (endAtLineFeed ++ rootRule)).1.isOk = true := by cbv
  have hfirst : (Stage.start 60 {} (endAtLineFeed ++ rootRule)).next.all
      (fun st => (st.reader.scopes.findVariable? "a").isNone) = true := by cbv
  have hsecond : ((Stage.start 60 {} (endAtLineFeed ++ rootRule)).next.bind Stage.next).all
      (fun st => st.reader.cursor.items.isEmpty) = true := by cbv
  have hrule : (itemsOf rootRule).isEmpty = false := by cbv
  cases hrun : Read.ruleList 60 [] (.ofTokens endAtLineFeed {}) with
  | error stop r =>
      rw [EStateM.run', EStateM.run, Read.bind_error hrun] at hfinal
      cases hfinal
  | ok rules final =>
      rw [EStateM.run', EStateM.run, Read.bind_ok hrun] at hfinal
      refine ⟨rules, final, rfl, hends, hok, ?_⟩
      rintro ⟨st, hcomes, hscopes⟩
      have hbound : (st.reader.scopes.findVariable? "a").isSome = true := by
        rw [hscopes]
        exact Option.some.inj hfinal
      cases hcomes with
      | refl => cases hbound
      | @step _ mid _ hstep _ hcomes =>
          have hnext := Stage.next_eq_some_iff.mpr hstep
          rw [hnext] at hfirst hsecond
          cases hcomes with
          | refl =>
              have hnone : (st.reader.scopes.findVariable? "a").isNone = true := hfirst
              rw [Option.isNone_iff_eq_none.mp hnone] at hbound
              cases hbound
          | @step _ behind _ hstep' hsuffix _ =>
              rw [Option.bind_some, Stage.next_eq_some_iff.mpr hstep'] at hsecond
              have hempty : behind.reader.cursor.items = [] := List.isEmpty_iff.mp hsecond
              rw [hempty, List.suffix_nil] at hsuffix
              rw [hsuffix] at hrule
              cases hrule

end Sheet
end Cascade

import Cascade.Proofs.Faults
import Cascade.Proofs.SelectorReading

/-!
# Important declarations

A declaration is important if its values end with an exclamation mark and the word
for it, and what stands before the mark is its value.

**Method.**  `EndsImportant vs front` says that the values `vs` end so behind the
values `front`.  `searchImportant` looks for the leftmost place from where on
nothing but the mark stands, in every list; reading a declaration looks for it only
if the scan for matching brackets stops early.  Collected values are whole, so that
the scan stops at a stray closer, a semicolon or an exclamation mark only
(`consumes_wholeValues`), and where it does not stop there is no mark.

**Results.**
* `searchImportant_eq_true_iff`: the search finds the mark at the end of a list.
* `splitImportant_eq_search`: the shortcut gives the answer of the search.
* `declaration_of_collected`: a declaration whose values have been collected is read,
  and important if they end with the mark.
-/

namespace Cascade

/-! ## The mark at the end -/

/-- The values end with an exclamation mark, perhaps whitespace, and the word, behind `front`. -/
def EndsImportant (vs front : List Value) : Prop :=
  ∃ (bang word : Token) (blanks : List Value),
    vs = front ++ .token bang :: (blanks ++ [.token word]) ∧ bang.isDelim "!" = true ∧
      (∀ v ∈ blanks, v.isWhitespace = true) ∧ word.type = .ident ∧
      Text.foldCase word.text = "important"

/-- The values do not end with whitespace. -/
def EndsVisible (vs : List Value) : Prop :=
  vs.getLast?.any Value.isWhitespace = false

theorem endsVisible_trimWhitespace (vs : List Value) :
    EndsVisible (trimWhitespace vs) := by
  rw [EndsVisible, trimWhitespace, List.getLast?_reverse]
  exact Lexer.head?_dropWhile_any _ _

theorem EndsVisible.of_append {us vs : List Value} (h : EndsVisible (us ++ vs)) :
    EndsVisible vs := by
  cases vs with
  | nil => rfl
  | cons v vs => rwa [EndsVisible, List.getLast?_append_cons] at h

theorem EndsVisible.eq_nil {vs : List Value} (h : EndsVisible vs)
    (hblank : ∀ v ∈ vs, v.isWhitespace = true) :
    vs = [] := by
  by_contra hne
  rw [EndsVisible, List.getLast?_eq_some_getLast hne, Option.any_some,
    hblank _ (List.getLast_mem hne)] at h
  cases h

/-- Nothing is dropped from the back of such values. -/
theorem EndsVisible.dropWhile_reverse {vs : List Value} (h : EndsVisible vs) :
    vs.reverse.dropWhile Value.isWhitespace = vs.reverse := by
  rw [EndsVisible, ← List.head?_reverse] at h
  cases hvs : vs.reverse with
  | nil => rfl
  | cons v us =>
      rw [hvs, List.head?_cons, Option.any_some] at h
      rw [List.dropWhile_cons, h, if_neg Bool.false_ne_true]

theorem EndsImportant.append {vs front : List Value} (h : EndsImportant vs front)
    (us : List Value) :
    EndsImportant (us ++ vs) (us ++ front) := by
  obtain ⟨bang, word, blanks, rfl, hmark⟩ := h
  exact ⟨bang, word, blanks, (List.append_assoc ..).symm, hmark⟩

theorem isImportantKeyword_iff {v : Value} :
    isImportantKeyword v = true ↔
      ∃ word : Token, v = .token word ∧ word.type = .ident ∧
        Text.foldCase word.text = "important" := by
  cases v <;> simp [isImportantKeyword]

theorem isDelim_iff {v : Value} {text : String} :
    v.isDelim text = true ↔ ∃ t : Token, v = .token t ∧ t.isDelim text = true := by
  cases v <;> simp [Value.isDelim]

theorem not_blank_of_isDelim {t : Token} {text : String} (h : t.isDelim text = true) :
    (Value.token t).isWhitespace = false := by
  simp [Value.isWhitespace, Value.hasType, (Token.isDelim_iff.mp h).1]

theorem not_blank_of_ident {t : Token} (h : t.type = .ident) :
    (Value.token t).isWhitespace = false := by
  simp [Value.isWhitespace, Value.hasType, h]

/-! ## Stripping the mark -/

/-- The mark at the end is stripped. -/
theorem EndsImportant.stripImportant? {vs front : List Value} (h : EndsImportant vs front) :
    stripImportant? vs = some (trimWhitespace front) := by
  obtain ⟨bang, word, blanks, rfl, hbang, hblanks, htype, hfold⟩ := h
  have hword : isImportantKeyword (.token word) = true :=
    isImportantKeyword_iff.mpr ⟨word, rfl, htype, hfold⟩
  have hmark : (Value.token bang).isDelim "!" = true := hbang
  have hreverse : (front ++ Value.token bang :: (blanks ++ [Value.token word])).reverse =
      .token word :: (blanks.reverse ++ .token bang :: front.reverse) := by
    simp
  have hdrop : (blanks.reverse ++ .token bang :: front.reverse).dropWhile Value.isWhitespace =
      .token bang :: front.reverse := by
    rw [List.dropWhile_append_of_pos (by simpa using hblanks), List.dropWhile_cons,
      not_blank_of_isDelim hbang, if_neg Bool.false_ne_true]
  simp only [Cascade.stripImportant?, hreverse, List.dropWhile_cons, not_blank_of_ident htype,
    Bool.false_eq_true, if_false, hword, if_true, hdrop, hmark, List.reverse_reverse]

theorem exists_blanks_before {vs : List Value} {v : Value} {rest : List Value}
    (h : vs.dropWhile Value.isWhitespace = v :: rest) :
    ∃ blanks, (∀ u ∈ blanks, u.isWhitespace = true) ∧ vs = blanks ++ v :: rest := by
  refine ⟨vs.takeWhile Value.isWhitespace, fun u hu => List.mem_takeWhile_imp hu, ?_⟩
  rw [← h, List.takeWhile_append_dropWhile]

/-- What is stripped is the mark at the end. -/
theorem exists_endsImportant {vs value : List Value} (hvisible : EndsVisible vs)
    (h : stripImportant? vs = some value) :
    ∃ front, EndsImportant vs front ∧ value = trimWhitespace front := by
  unfold stripImportant? at h
  rw [hvisible.dropWhile_reverse] at h
  split at h
  · cases h
  · next keyword before hvs =>
      split at h
      · next hkeyword =>
          split at h
          · cases h
          · next bang values hbefore =>
              split at h
              · next hbang =>
                  obtain ⟨word, rfl, htype, hfold⟩ := isImportantKeyword_iff.mp hkeyword
                  obtain ⟨mark, rfl, hmark⟩ := isDelim_iff.mp hbang
                  obtain ⟨blanks, hblanks, rfl⟩ := exists_blanks_before hbefore
                  have hback := congrArg List.reverse hvs
                  rw [List.reverse_reverse] at hback
                  exact ⟨values.reverse, ⟨mark, word, blanks.reverse, by simp [hback], hmark,
                    by simpa using hblanks, htype, hfold⟩, (Option.some_inj.mp h).symm⟩
              · cases h
      · cases h

/-! ## Searching for the mark -/

/-- The values before the leftmost place from where on the list has the property. -/
def findSuffix (p : List Value → Bool) : List Value → Option (List Value)
  | [] => if p [] then some [] else none
  | v :: vs => if p (v :: vs) then some [] else (findSuffix p vs).map (v :: ·)

theorem findSuffix_eq_some {p : List Value → Bool} {vs front : List Value}
    (h : findSuffix p vs = some front) :
    ∃ back, vs = front ++ back ∧ p back = true := by
  induction vs generalizing front with
  | nil =>
      unfold findSuffix at h
      split at h
      · next hp => exact ⟨[], by rw [← Option.some_inj.mp h]; rfl, hp⟩
      · cases h
  | cons v vs ih =>
      unfold findSuffix at h
      split at h
      · next hp => exact ⟨v :: vs, by rw [← Option.some_inj.mp h]; rfl, hp⟩
      · obtain ⟨us, hus, rfl⟩ := Option.map_eq_some_iff.mp h
        obtain ⟨back, rfl, hp⟩ := ih hus
        exact ⟨back, rfl, hp⟩

theorem findSuffix_ne_none {p : List Value → Bool} (us : List Value) {back : List Value}
    (hp : p back = true) :
    findSuffix p (us ++ back) ≠ none := by
  induction us with
  | nil => cases back <;> simp [findSuffix, hp]
  | cons u us ih =>
      rw [List.cons_append, findSuffix]
      split
      · exact Option.some_ne_none _
      · rwa [ne_eq, Option.map_eq_none_iff]

/-- Whitespace, an exclamation mark, whitespace, the word and whitespace, and nothing else. -/
def isImportantSuffix (vs : List Value) : Bool :=
  match vs.dropWhile Value.isWhitespace with
  | [] => false
  | bang :: rest =>
    bang.isDelim "!" &&
      match rest.dropWhile Value.isWhitespace with
      | [] => false
      | keyword :: behind => isImportantKeyword keyword && behind.all Value.isWhitespace

/-- The value of a declaration, and whether it is important, by a search from the left. -/
def searchImportant (vs : List Value) : List Value × Bool :=
  match findSuffix isImportantSuffix vs with
  | some front => (trimWhitespace front, true)
  | none => (vs, false)

theorem trimWhitespace_append_blanks (front : List Value) {blanks : List Value}
    (h : ∀ v ∈ blanks, v.isWhitespace = true) :
    trimWhitespace (front ++ blanks) = trimWhitespace front := by
  unfold trimWhitespace
  rw [List.dropWhile_append]
  split
  · next hfront =>
      have hblanks : blanks.dropWhile Value.isWhitespace = [] := List.dropWhile_eq_nil_iff.mpr h
      rw [hblanks, List.isEmpty_iff.mp hfront]
  · rw [List.reverse_append, List.dropWhile_append_of_pos (by simpa using h)]

theorem EndsImportant.isImportantSuffix {vs : List Value} (h : EndsImportant vs []) :
    isImportantSuffix vs = true := by
  obtain ⟨bang, word, blanks, rfl, hbang, hblanks, htype, hfold⟩ := h
  have hword : isImportantKeyword (.token word) = true :=
    isImportantKeyword_iff.mpr ⟨word, rfl, htype, hfold⟩
  have hmark : (Value.token bang).isDelim "!" = true := hbang
  simp [Cascade.isImportantSuffix, not_blank_of_isDelim hbang, hmark,
    List.dropWhile_append_of_pos hblanks, not_blank_of_ident htype, hword]

/-- No whitespace stands behind the word of a suffix that ends with none. -/
theorem exists_blanks_of_isImportantSuffix {vs : List Value} (hvisible : EndsVisible vs)
    (h : isImportantSuffix vs = true) :
    ∃ blanks, (∀ v ∈ blanks, v.isWhitespace = true) ∧ EndsImportant vs blanks := by
  unfold isImportantSuffix at h
  split at h
  · cases h
  · next bang rest hvs =>
      obtain ⟨hbang, hrest⟩ := Bool.and_eq_true_iff.mp h
      split at hrest
      · cases hrest
      · next keyword behind hdrop =>
          obtain ⟨hkeyword, hbehind⟩ := Bool.and_eq_true_iff.mp hrest
          obtain ⟨front, hfront, rfl⟩ := exists_blanks_before hvs
          obtain ⟨blanks, hblanks, rfl⟩ := exists_blanks_before hdrop
          obtain ⟨mark, rfl, hmark⟩ := isDelim_iff.mp hbang
          obtain ⟨word, rfl, htype, hfold⟩ := isImportantKeyword_iff.mp hkeyword
          obtain rfl : behind = [] := by
            have hsplit : front ++ Value.token mark :: (blanks ++ Value.token word :: behind) =
                (front ++ Value.token mark :: (blanks ++ [Value.token word])) ++ behind := by
              simp
            rw [hsplit] at hvisible
            exact hvisible.of_append.eq_nil (List.all_eq_true.mp hbehind)
          exact ⟨front, hfront, mark, word, blanks, rfl, hmark, hblanks, htype, hfold⟩

/-- Searching from the left and stripping from the right give the same answer. -/
theorem searchImportant_eq {vs : List Value} (hvisible : EndsVisible vs) :
    searchImportant vs = (stripImportant? vs).elim (vs, false) fun value => (value, true) := by
  unfold searchImportant
  split
  · next front hfind =>
      obtain ⟨back, rfl, hback⟩ := findSuffix_eq_some hfind
      obtain ⟨blanks, hblanks, hends⟩ :=
        exists_blanks_of_isImportantSuffix hvisible.of_append hback
      rw [(hends.append front).stripImportant?, trimWhitespace_append_blanks front hblanks]
      rfl
  · next hfind =>
      cases hstrip : stripImportant? vs with
      | none => rfl
      | some value =>
          obtain ⟨front, ⟨bang, word, blanks, rfl, hmark⟩, -⟩ := exists_endsImportant hvisible hstrip
          have hback : EndsImportant (.token bang :: (blanks ++ [.token word])) [] :=
            ⟨bang, word, blanks, rfl, hmark⟩
          exact absurd hfind (findSuffix_ne_none front hback.isImportantSuffix)

/-! ## The shortcut -/

namespace Scan

/-- Over whole values the scan passes no exclamation mark, since no bracket is open there. -/
theorem consumes_wholeValues (n : Nat) (read : List Value) {c : Cursor}
    (hwhole : c.All Value.IsWhole) :
    Consumes c (balancedFrom false n [] read) fun run us =>
      run = read.reverse ++ us ∧ ∀ v ∈ us, v.isDelim "!" = false := by
  induction n generalizing c read with
  | zero => exact .pure ⟨(List.append_nil _).symm, List.forall_mem_nil _⟩
  | succ n ih =>
      have hend : Consumes c (Pure.pure read.reverse : Scan (List Value)) fun run us =>
          run = read.reverse ++ us ∧ ∀ v ∈ us, v.isDelim "!" = false :=
        .pure ⟨(List.append_nil _).symm, List.forall_mem_nil _⟩
      have hstep : ∀ {v : Value}, c.peek 0 = some v → v.isDelim "!" = false →
          Consumes c (Scan.next >>= fun _ => balancedFrom false n [] (v :: read)) fun run us =>
            run = read.reverse ++ us ∧ ∀ v ∈ us, v.isDelim "!" = false := by
        intro v hfront hv
        refine .next hfront ((ih (v :: read) hwhole.next).mono ?_)
        rintro run us ⟨rfl, hus⟩
        exact ⟨by simp, List.forall_mem_cons.mpr ⟨hv, hus⟩⟩
      rw [balancedFrom]
      refine .look ?_
      cases hfront : c.peek 0 with
      | none => exact hend
      | some v =>
          cases v with
          | token t =>
              have hopens : t.type.closer? = none := hwhole.peek hfront
              have hdue : dueAfter t [] = [] := by simp [dueAfter, hopens]
              simp only [hopens, Option.isSome_none, Bool.false_eq_true, if_false]
              split
              · exact hend
              · split
                · exact hend
                · next hstop =>
                    refine hstep hfront ?_
                    simp only [Bool.not_false, List.isEmpty_nil, Bool.true_and, Bool.or_eq_true,
                      not_or, Bool.not_eq_true] at hstop
                    exact hstop.2
          | block _ _ _ => exact hstep hfront rfl
          | call _ _ _ _ => exact hstep hfront rfl
          | reference _ _ => exact hstep hfront rfl

end Scan

theorem EndsImportant.exists_delim {vs front : List Value} (h : EndsImportant vs front) :
    ∃ v ∈ vs, v.isDelim "!" = true := by
  obtain ⟨bang, word, blanks, rfl, hbang, -⟩ := h
  exact ⟨.token bang, by simp, hbang⟩

/-- The shortcut gives the answer of the search. -/
theorem splitImportant_eq_search {vs : List Value} (hwhole : ∀ v ∈ vs, v.IsWhole)
    (hvisible : EndsVisible vs) :
    splitImportant vs = .ok (searchImportant vs) := by
  obtain ⟨found, hfound⟩ := exists_splitImportant hwhole
  rw [searchImportant_eq hvisible]
  unfold splitImportant at hfound ⊢
  cases hrun : Scan.balanced false (.ofValues vs 0) with
  | error d c =>
      rw [hrun] at hfound
      cases hfound
  | ok run c =>
      obtain ⟨us, hus, rfl, hmark⟩ := Scan.consumes_wholeValues _ []
        ((Cursor.all_ofValues 0).mpr hwhole) run c hrun
      rw [Cursor.rest_ofValues] at hus
      dsimp only
      split
      · next hend =>
          have hrest : c.rest = [] := by
            simpa [Cursor.atEnd, Cursor.peek_eq_getElem?] using hend
          rw [hrest, List.append_nil] at hus
          subst hus
          cases hstrip : stripImportant? vs with
          | none => rfl
          | some value =>
              obtain ⟨front, hends, -⟩ := exists_endsImportant hvisible hstrip
              obtain ⟨v, hv, hdelim⟩ := hends.exists_delim
              rw [hmark v hv] at hdelim
              cases hdelim
      · cases stripImportant? vs <;> rfl

/-! ## Declarations -/

/-- The value and the importance of a declaration are those that its values give. -/
structure MarkedBy (vs value : List Value) (important : Bool) : Prop where
  important_iff : important = true ↔ ∃ front, EndsImportant vs front
  marked : ∀ front, EndsImportant vs front → value = trimWhitespace front
  unmarked : important = false → value = vs

theorem markedBy_searchImportant {vs : List Value} (hvisible : EndsVisible vs) :
    MarkedBy vs (searchImportant vs).1 (searchImportant vs).2 := by
  rw [searchImportant_eq hvisible]
  cases hstrip : stripImportant? vs with
  | none =>
      have hnot : ∀ front, ¬ EndsImportant vs front := by
        intro front hends
        rw [hends.stripImportant?] at hstrip
        cases hstrip
      exact ⟨⟨nofun, fun ⟨front, hends⟩ => (hnot front hends).elim⟩,
        fun front hends => (hnot front hends).elim, fun _ => rfl⟩
  | some value =>
      obtain ⟨front, hends, -⟩ := exists_endsImportant hvisible hstrip
      refine ⟨⟨fun _ => ⟨front, hends⟩, fun _ => rfl⟩, fun other hother => ?_, nofun⟩
      rw [hother.stripImportant?] at hstrip
      exact (Option.some_inj.mp hstrip).symm

namespace Read

/-- The values that are collected for a declaration open no group. -/
theorem whole_of_collect {n : Nat} {r s : Reader} {values : List Value}
    (h : collect n declarationEnd [] r = .ok values s) :
    ∀ v ∈ values, v.IsWhole := by
  have hsafe := (carefulValues (P := fun _ => True) n).collect careful_declarationEnd []
    (List.forall_mem_nil _) r (Reader.sound_of_forall (fun _ => trivial) r)
  rw [h] at hsafe
  exact fun v hv => (hsafe.2 v hv).whole rfl

/-- The name and the colon of a declaration. -/
def declarationHead : Read (Token × Token) := do
  let name ← scan (Scan.consume .ident "Expected property name")
  skipWhitespace
  let colon ← scan (Scan.consume .colon s!"Expected ':' after property name {name.text}")
  return (name, colon)

/-- A declaration is its head and its values. -/
theorem declaration_eq (n : Nat) :
    declaration n = (do
      let (name, colon) ← declarationHead
      let values ← collect n declarationEnd []
      match splitImportant (trimWhitespace values) with
      | .ok (value, important) => return ⟨name, colon, value, important⟩
      | .error d => fail d) := by
  unfold declaration declarationHead
  rw [bind_assoc]
  refine bind_congr fun name => ?_
  rw [bind_assoc]
  refine bind_congr fun _ => ?_
  rw [bind_assoc]
  refine bind_congr fun colon => ?_
  exact (pure_bind _ _).symm

/-- When the values of a declaration have been collected, it is read.  It is important if its values
end with the mark, which is then left out of its value; and looking for the mark only where the scan
for matching brackets stops early gives the answer of a search of all the values. -/
theorem declaration_of_collected {n : Nat} {r s t : Reader} {name colon : Token}
    {values : List Value} (hhead : declarationHead r = .ok (name, colon) s)
    (hvalues : collect n declarationEnd [] s = .ok values t) :
    ∃ value important, declaration n r = .ok ⟨name, colon, value, important⟩ t ∧
      MarkedBy (trimWhitespace values) value important ∧
      splitImportant (trimWhitespace values) = .ok (value, important) ∧
      searchImportant (trimWhitespace values) = (value, important) := by
  have hwhole : ∀ v ∈ trimWhitespace values, v.IsWhole :=
    fun v hv => whole_of_collect hvalues v (mem_of_mem_trimWhitespace hv)
  have hvisible := endsVisible_trimWhitespace values
  have hsplit := splitImportant_eq_search hwhole hvisible
  refine ⟨_, _, ?_, markedBy_searchImportant hvisible, hsplit, rfl⟩
  rw [declaration_eq, bind_ok hhead]
  dsimp only
  rw [bind_ok hvalues, hsplit]
  rfl

/-- A declaration with a mark in brackets, one in the middle and one at the end. -/
def repeatedMarks : Reader :=
  .ofTokens (tokenize "p: [!important] a ! important ! IMPORTANT ; b") {}

/-- Only the last mark is left out. -/
theorem declaration_of_collected_repeated :
    ∃ (s t : Reader) (name colon : Token) (values value : List Value),
      declarationHead repeatedMarks = .ok (name, colon) s ∧
        collect 40 declarationEnd [] s = .ok values t ∧
        declaration 40 repeatedMarks = .ok ⟨name, colon, value, true⟩ t ∧
        MarkedBy (trimWhitespace values) value true ∧ value.length = 7 := by
  have hok : (match declarationHead repeatedMarks with
      | .ok _ s =>
        match collect 40 declarationEnd [] s with
        | .ok values _ =>
          let found := searchImportant (trimWhitespace values)
          decide (found.2 = true ∧ found.1.length = 7)
        | .error _ _ => false
      | .error _ _ => false) = true := by
    decide +kernel
  cases hhead : declarationHead repeatedMarks with
  | error stop s => simp [hhead] at hok
  | ok found s =>
      obtain ⟨name, colon⟩ := found
      cases hvalues : collect 40 declarationEnd [] s with
      | error stop t => simp [hhead, hvalues] at hok
      | ok values t =>
          obtain ⟨value, important, hread, hmarked, -, hsearch⟩ :=
            declaration_of_collected hhead hvalues
          simp only [hhead, hvalues, hsearch, decide_eq_true_eq] at hok
          obtain ⟨rfl, hlength⟩ := hok
          exact ⟨s, t, name, colon, values, value, rfl, hvalues, hread, hmarked, hlength⟩

end Read
end Cascade

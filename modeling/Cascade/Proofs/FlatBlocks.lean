import Cascade.Proofs.Contents
import Cascade.Proofs.SelectorGroups

/-!
# Flat blocks hold the tokens of nested ones

A block is read in two ways: with the groups in it, by recursion, or flat, with a
stack of the closers that are due.  Both end at the same token, whichever closers
match, are missing or stand alone, and the flat block holds the tokens of the nested
one.

**Method.**  The contents of a block determine the tokens they were made of
(`Contents.layFlat`).  The stack holds the closers of the groups around a token, the
innermost first; along `Contents`, reading flat takes the tokens of the contents of
the innermost group and goes on behind its closer (`scan_rawContents_of_contents`).

**Results.**
* `exists_block_and_rawBlock`: the two blocks have the same brackets, the same tokens
  between them and the same tokens behind them.
-/

namespace Cascade

/-! ## The tokens of contents -/

theorem layFlat_cons (v : Value) (vs : List Value) :
    layFlat (v :: vs) = v.tokens.map .token ++ layFlat vs := by
  rw [layFlat, layFlat, tokensOf, List.map_append]

theorem tokens_openCall (name : Token) (vs : List Value) (closing : Option Token) :
    (openCall name vs closing).tokens = name :: (tokensOf vs ++ closing.toList) := by
  obtain ⟨hvalues, hlength⟩ := Read.CallState.values_foldl vs {} rfl
  have hflat := Read.CallState.flattenArguments_close _ name closing hlength
  rw [openCall, Call.toValue, Value.tokens, argumentTokens_eq, hflat, hvalues]
  rfl

/-- Tokens are neither lost nor added, and they stay in order. -/
theorem Contents.layFlat {stop : Token → Bool} {vs us rest : List Value} {closing : Option Token}
    (h : Contents (fun _ => none) stop vs us closing rest) (hvs : ∀ v ∈ vs, v.shape = .token) :
    vs = layFlat us ++ (closing.toList.map .token ++ rest) := by
  induction h with
  | ended => rfl
  | stopped _ => rfl
  | single _ _ _ _ ih =>
      rw [layFlat_cons, List.append_assoc, ← ih (List.forall_mem_of_forall_mem_cons hvs)]
      rfl
  | block _ _ _ _ ihinner ih =>
      have hinner := ihinner (List.forall_mem_of_forall_mem_cons hvs)
      have hmid := ih fun v hv => hvs v (by rw [hinner]; simp [hv])
      rw [hinner, hmid, layFlat_cons, Value.tokens]
      simp [Cascade.layFlat]
  | call _ _ _ _ ihinner ih =>
      have hinner := ihinner (List.forall_mem_of_forall_mem_cons hvs)
      have hmid := ih fun v hv => hvs v (by rw [hinner]; simp [hv])
      rw [hinner, hmid, layFlat_cons, tokens_openCall]
      simp [Cascade.layFlat]
  | @group _ g _ _ _ _ hgroup _ _ =>
      have htoken := hvs g List.mem_cons_self
      rcases hgroup with hshape | hshape <;> rw [hshape] at htoken <;> cases htoken
  | use _ _ _ hvalues _ _ _ => cases hvalues

namespace Read

variable {r : Reader}

/-! ## The stack of closers -/

/-- The flat block, read on behind the contents of its innermost group. -/
def rawBehind (opener : Token) (closer : TokenType) (n : Nat) (due : List TokenType)
    (closing : Option Token) (read : List Value) : Scan Block :=
  match closing, due with
  | none, _ => return ⟨opener, read.reverse, none⟩
  | some t, [] => return ⟨opener, read.reverse, some t⟩
  | some t, _ :: due => Scan.rawContents opener closer n due (.token t :: read)

/-- The flat block takes the tokens of the contents and goes on behind them. -/
def TakesFlat (closer : TokenType) (due : List TokenType) (vs us : List Value) (closing : Option Token)
    (rest : List Value) : Prop :=
  ∀ r : Reader, r.cursor.items = vs.map .value →
    ∃ s : Reader, s.cursor.items = rest.map .value ∧ ∀ opener n read, vs.length < n →
      ∃ m, rest.length < m ∧ scan (Scan.rawContents opener closer n due read) r =
        scan (rawBehind opener closer m due closing ((layFlat us).reverse ++ read)) s

section TakesFlat

variable {closer : TokenType} {due : List TokenType} {vs us mid rest : List Value}
  {closing : Option Token} {t : Token}

variable (closer due) in
/-- One token that does not end the flat block. -/
theorem scan_rawContents_token (hitems : r.cursor.items = (.token t :: vs).map .value)
    (hopen : ¬ (due = [] ∧ t.type = closer)) :
    ∃ s : Reader, s.cursor.items = vs.map .value ∧ ∀ opener n read,
      scan (Scan.rawContents opener closer (n + 1) due read) r =
        scan (Scan.rawContents opener closer n (Scan.dueAfter t due) (.token t :: read)) s := by
  refine ⟨{ r with cursor := r.cursor.next.2 }, Cursor.items_next_of_blank Item.blank_nil hitems,
    fun opener n read => ?_⟩
  rw [scan_rawContents_some (peek_of_items_cons hitems)]
  simp only [if_neg hopen]

theorem takesFlat_ended :
    TakesFlat closer due [] [] none [] := by
  intro r hitems
  refine ⟨{ r with cursor := r.cursor.next.2 }, ?_, fun opener n read hn => ⟨n, hn, ?_⟩⟩
  · simp [Cursor.next, hitems, Cursor.dropMarkers]
  · obtain ⟨n, rfl⟩ := Nat.exists_eq_add_of_lt hn
    exact scan_rawContents_none (peek_of_items_nil hitems) _

/-- The innermost closer is taken, and it ends the block if no other one is due. -/
theorem takesFlat_stopped (hcloses : t.type.closer? = none) (htype : t.type = due.headD closer) :
    TakesFlat closer due (.token t :: vs) [] (some t) vs := by
  intro r hitems
  cases due with
  | nil =>
      refine ⟨{ r with cursor := r.cursor.next.2 }, Cursor.items_next_of_blank Item.blank_nil hitems,
        fun opener n read hn => ⟨n, Nat.lt_of_succ_lt hn, ?_⟩⟩
      obtain ⟨n, rfl⟩ := Nat.exists_eq_add_of_le' (Nat.one_le_of_lt hn)
      have hlast : t.type = closer := htype
      rw [scan_rawContents_some (peek_of_items_cons hitems)]
      simp only [hlast, and_self, if_true]
      rfl
  | cons type due =>
      obtain ⟨s, hs, hrun⟩ := scan_rawContents_token closer (type :: due) hitems
        (fun h => nomatch h.1)
      refine ⟨s, hs, fun opener n read hn => ?_⟩
      obtain ⟨n, rfl⟩ := Nat.exists_eq_add_of_le' (Nat.one_le_of_lt hn)
      have hhead : type = t.type := htype.symm
      have hback : Scan.dueAfter t (type :: due) = due := by
        simp [Scan.dueAfter, hcloses, hhead]
      refine ⟨n, Nat.lt_of_succ_lt_succ hn, ?_⟩
      rw [hrun, hback]
      rfl

theorem TakesFlat.single (hopens : t.type.closer? = none) (htype : t.type ≠ due.headD closer)
    (h : TakesFlat closer due vs us closing rest) :
    TakesFlat closer due (.token t :: vs) (.token t :: us) closing rest := by
  intro r hitems
  obtain ⟨s, hs, hrun⟩ := scan_rawContents_token closer due hitems
    (by rintro ⟨rfl, hlast⟩; exact htype hlast)
  obtain ⟨s', hs', hrest⟩ := h s hs
  have hsame : Scan.dueAfter t due = due := by
    have hhead : due.head? ≠ some t.type := by
      intro hhead
      exact htype (by rw [List.headD_eq_head?_getD, hhead]; rfl)
    simp [Scan.dueAfter, hopens, hhead]
  refine ⟨s', hs', fun opener n read hn => ?_⟩
  obtain ⟨n, rfl⟩ := Nat.exists_eq_add_of_le' (Nat.one_le_of_lt hn)
  obtain ⟨m, hm, hbehind⟩ := hrest opener n (.token t :: read) (Nat.lt_of_succ_lt_succ hn)
  refine ⟨m, hm, ?_⟩
  rw [hrun, hsame, hbehind, layFlat_cons]
  simp [Value.tokens]

/-- A group is taken with its own closer on the stack.  Without that closer the input has ended. -/
theorem TakesFlat.group {g : Value} {inner : List Value} {closer' : TokenType} {closing' : Option Token}
    (hopens : t.type.closer? = some closer') (htype : t.type ≠ due.headD closer)
    (hg : g.tokens = t :: (tokensOf inner ++ closing'.toList))
    (hinner : TakesFlat closer (closer' :: due) vs inner closing' mid)
    (hrest : TakesFlat closer due mid us closing rest)
    (hended : closing' = none → us = [] ∧ closing = none ∧ rest = mid) :
    TakesFlat closer due (.token t :: vs) (g :: us) closing rest := by
  intro r hitems
  obtain ⟨s, hs, hrun⟩ := scan_rawContents_token closer due hitems
    (by rintro ⟨rfl, hlast⟩; exact htype hlast)
  have hpush : Scan.dueAfter t due = closer' :: due := by
    simp [Scan.dueAfter, hopens]
  obtain ⟨s', hs', hinside⟩ := hinner s hs
  have htokens (read : List Value) : (layFlat (g :: us)).reverse ++ read =
      (layFlat us).reverse ++ ((closing'.toList.map .token).reverse ++
        ((layFlat inner).reverse ++ (.token t :: read))) := by
    rw [layFlat_cons, hg]
    simp [layFlat]
  cases closing' with
  | none =>
      obtain ⟨rfl, rfl, rfl⟩ := hended rfl
      refine ⟨s', hs', fun opener n read hn => ?_⟩
      obtain ⟨n, rfl⟩ := Nat.exists_eq_add_of_le' (Nat.one_le_of_lt hn)
      obtain ⟨m, hm, hbehind⟩ := hinside opener n (.token t :: read) (Nat.lt_of_succ_lt_succ hn)
      refine ⟨m, hm, ?_⟩
      rw [hrun, hpush, hbehind, htokens]
      rfl
  | some c =>
      obtain ⟨s'', hs'', houtside⟩ := hrest s' hs'
      refine ⟨s'', hs'', fun opener n read hn => ?_⟩
      obtain ⟨n, rfl⟩ := Nat.exists_eq_add_of_le' (Nat.one_le_of_lt hn)
      obtain ⟨m, hm, hbehind⟩ := hinside opener n (.token t :: read) (Nat.lt_of_succ_lt_succ hn)
      obtain ⟨k, hk, hlast⟩ :=
        houtside opener m (.token c :: ((layFlat inner).reverse ++ (.token t :: read))) hm
      refine ⟨k, hk, ?_⟩
      rw [hrun, hpush, hbehind, htokens]
      exact hlast

end TakesFlat

/-- The flat block takes the tokens of the contents of the innermost group. -/
theorem takesFlat_of_contents {stop : Token → Bool} {vs us rest : List Value} {closing : Option Token}
    (h : Contents (fun _ => none) stop vs us closing rest) (hvs : ∀ v ∈ vs, v.shape = .token)
    {closer : TokenType} (due : List TokenType) (hstop : ∀ t, stop t = (t.type == due.headD closer))
    (hclose : (due.headD closer).isCloser = true) :
    TakesFlat closer due vs us closing rest := by
  have hnot {stop : Token → Bool} {due : List TokenType} {t : Token}
      (hstop : ∀ t, stop t = (t.type == due.headD closer)) (ht : stop t = false) :
      t.type ≠ due.headD closer :=
    beq_eq_false_iff_ne.mp ((hstop t).symm.trans ht)
  have hlast {stop : Token → Bool} {mid us rest : List Value} {closing closing' : Option Token}
      (hmid : closing = none → mid = []) (h : Contents (fun _ => none) stop mid us closing' rest) :
      closing = none → us = [] ∧ closing' = none ∧ rest = mid := by
    intro hnone
    rw [hmid hnone] at h ⊢
    exact h.of_nil
  induction h generalizing due with
  | ended => exact takesFlat_ended
  | @stopped _ t _ ht =>
      have htype := eq_of_beq ((hstop t).symm.trans ht)
      exact takesFlat_stopped (TokenType.closer?_of_isCloser (htype ▸ hclose)) htype
  | single ht hopens _ _ ih =>
      exact .single hopens (hnot hstop ht) (ih (List.forall_mem_of_forall_mem_cons hvs) due hstop hclose)
  | @block _ opener _ _ _ _ _ _ closing _ ht hpartner hinner hrest ihinner ih =>
      have hvs := List.forall_mem_of_forall_mem_cons hvs
      have hmid := (hinner.layFlat hvs)
      refine .group (TokenType.closer?_of_partner? hpartner) (hnot hstop ht) (by rw [Value.tokens])
        (ihinner hvs _ (fun _ => rfl) (TokenType.isCloser_of_partner? hpartner))
        (ih (fun v hv => hvs v (by rw [hmid]; simp [hv])) due hstop hclose) (hlast ?_ hrest)
      rintro rfl
      exact hinner.ended_of_unclosed
  | @call _ name _ _ _ _ _ closing _ ht hname hinner hrest ihinner ih =>
      have hvs := List.forall_mem_of_forall_mem_cons hvs
      have hmid := (hinner.layFlat hvs)
      refine .group (by rw [hname]; rfl) (hnot hstop ht) (tokens_openCall _ _ _)
        (ihinner hvs _ (fun _ => rfl) rfl)
        (ih (fun v hv => hvs v (by rw [hmid]; simp [hv])) due hstop hclose) (hlast ?_ hrest)
      rintro rfl
      exact hinner.ended_of_unclosed
  | @group _ g _ _ _ _ hgroup _ _ =>
      have htoken := hvs g List.mem_cons_self
      rcases hgroup with hshape | hshape <;> rw [hshape] at htoken <;> cases htoken
  | use _ _ _ hvalues _ _ _ => cases hvalues

/-! ## The two blocks -/

/-- The tokens of a block that is read with its groups, or flat, are the same.  The two blocks agree on
their brackets, and the closer is missing only where the input ends. -/
theorem exists_block_and_rawBlock {opener : Token} {ts : List Token}
    (hopener : opener.type.isOpener = true) (hvar : NoVariable (opener :: ts))
    (hitems : r.cursor.items = tokenItems (opener :: ts)) :
    ∃ (b : Block) (rest : List Token), b.opener = opener ∧
      (∀ c ∈ b.closer, opener.type.partner? = some c.type) ∧ (b.closer = none → rest = []) ∧
      opener :: ts = b.toValue.tokens ++ rest ∧
      (∃ s, scan Scan.rawBlock r = .ok ⟨b.opener, layFlat b.contents, b.closer⟩ s ∧
        s.cursor.items = tokenItems rest) ∧
      ∃ bound, ∀ n, bound ≤ n →
        WantsRoom (block n) r ∨ ∃ s, block n r = .ok b s ∧ s.cursor.items = tokenItems rest := by
  obtain ⟨closer, hpartner⟩ := Option.isSome_iff_exists.mp hopener
  have hclose := TokenType.isCloser_of_partner? hpartner
  have hdenotes : Denotes (fun _ => none) (ts.map .token) ts := .tokens hvar.tail
  obtain ⟨us, closing, _, rest, _, hcontents, _, _⟩ :=
    exists_contents hdenotes (stopsAtClosers_closer hclose).stopsOutside
  have hshape : ∀ v ∈ ts.map Value.token, v.shape = .token := by
    intro v hv
    obtain ⟨t, _, rfl⟩ := List.mem_map.mp hv
    rfl
  have htokens : ts = tokensOf us ++ (closing.toList ++ rest) := by
    have hvalues := hcontents.layFlat hshape
    rw [layFlat, ← List.map_append, ← List.map_append] at hvalues
    exact List.map_injective_iff.mpr (fun _ _ => Value.token.inj) hvalues
  rw [items_of_tokens, List.map_cons] at hitems
  refine ⟨⟨opener, us, closing⟩, rest, rfl, ?_, ?_, ?_, ?_, ?_⟩
  · rintro c rfl
    rw [eq_of_beq hcontents.stop_closing]
    exact hpartner
  · rintro rfl
    simpa using hcontents.ended_of_unclosed
  · rw [htokens, Block.toValue, Value.tokens]
    simp
  · obtain ⟨s, hs, hrun⟩ := takesFlat_of_contents hcontents hshape [] (fun _ => rfl) hclose
      { r with cursor := r.cursor.next.2 } (Cursor.items_next_of_blank Item.blank_nil hitems)
    obtain ⟨m, _, hlast⟩ := hrun opener (r.cursor.next.2.items.length + 1) [] (by
      rw [Cursor.items_next_of_blank Item.blank_nil hitems]
      simp)
    refine ⟨s, ?_, by rw [hs, items_of_tokens]⟩
    rw [scan_rawBlock (peek_of_items_cons hitems) hpartner, hlast, List.append_nil]
    cases closing <;> simp [scan, rawBehind, pure, EStateM.pure]
  · obtain ⟨bound, hreads⟩ := exists_readsContents hcontents
    refine ⟨bound + 1, fun n hn => ?_⟩
    rcases gives_block hpartner hreads (.none _) hitems hn with hroom | ⟨s, hrun, hs, _⟩
    · exact .inl hroom
    · exact .inr ⟨s, hrun, by rw [hs, items_of_tokens]⟩

/-- The tokens `( f( a , ] ) } [ b )`, where two closers stand alone and two are missing. -/
def strayClosers : List Token :=
  [.bare .openParen "(", .bare .function "f", .bare .ident "a", .bare .comma ",",
    .bare .closeBracket "]", .bare .closeParen ")", .bare .closeBrace "\x7d",
    .bare .openBracket "[", .bare .ident "b", .bare .closeParen ")"]

/-- A block with stray closers that goes on to the end is the same in both ways. -/
theorem exists_block_and_rawBlock_strayClosers :
    (Token.bare .openParen "(").type.isOpener = true ∧ NoVariable strayClosers ∧
      ∃ (b : Block) (rest : List Token), b.opener = .bare .openParen "(" ∧
        (∀ c ∈ b.closer, some .closeParen = some c.type) ∧ (b.closer = none → rest = []) ∧
        strayClosers = b.toValue.tokens ++ rest ∧
        (∃ s, scan Scan.rawBlock (Reader.ofTokens strayClosers {}) =
          .ok ⟨b.opener, layFlat b.contents, b.closer⟩ s ∧ s.cursor.items = tokenItems rest) ∧
        ∃ bound, ∀ n, bound ≤ n → WantsRoom (block n) (Reader.ofTokens strayClosers {}) ∨
          ∃ s, block n (Reader.ofTokens strayClosers {}) = .ok b s ∧
            s.cursor.items = tokenItems rest := by
  have hvar : NoVariable strayClosers := by
    simp [NoVariable, strayClosers, Token.bare, Token.isDelim]
  exact ⟨rfl, hvar, exists_block_and_rawBlock rfl hvar rfl⟩

end Read
end Cascade

import Cascade.Proofs.Continuation

/-!
# What follows a statement of a style block

The comparison of two readers goes on with the statements of style blocks.

**Method.**  A declaration and a skipped statement end where the body of a mixin ends, so
that they may leave the sentinel unread although there is nothing before it: the first
reader is then `Cornered`, with ends of bodies only before the sentinel.  A lone dollar
sign may have been read there, which the second reader takes together with a name behind
the ends of the bodies.

**Results.**
* `parallel_declaration`, `parallel_skipStatement`, `parallel_styleStatement`: the
  statements of style blocks.
-/

namespace Cascade

namespace Reader

variable {us : List Item} {r s : Reader} {v : Value}

/-- Only ends of bodies are left before the sentinel, and at least one. -/
def Cornered (r : Reader) : Prop :=
  ∃ m lead, Item.Blank lead ∧ r.cursor.items = .marker m :: (lead ++ [.value (.token sentinel)])

/-- A statement ends here: nothing is left to read, or ends of bodies are before the sentinel. -/
def Over (r : Reader) : Prop :=
  r.Drained ∨ r.Cornered

/-- Where the sentinel is the only value left, it is the only item, unless ends of bodies are before
it. -/
theorem Spent.over_or_items (h : r.Spent) :
    r.Over ∨ r.cursor.items = [.value (.token sentinel)] := by
  rcases h with h | ⟨lead, hlead, hitems⟩
  · exact .inl (.inl h)
  · cases lead with
    | nil => exact .inr hitems
    | cons item lead =>
        cases item with
        | value v => cases hlead
        | marker m => exact .inl (.inr ⟨m, lead, (Item.blank_marker m).mp hlead, hitems⟩)

theorem Cornered.atExpansionEnd (h : r.Cornered) :
    r.cursor.atExpansionEnd = true := by
  obtain ⟨m, lead, _, hitems⟩ := h
  rw [Cursor.atExpansionEnd, hitems]

theorem BothAt.atExpansionEnd (h : BothAt us v r s) :
    s.cursor.atExpansionEnd = r.cursor.atExpansionEnd := by
  obtain ⟨lead, k, _, hitems, rfl⟩ := h
  cases lead with
  | nil => simp [Cursor.atExpansionEnd, hitems, withItems]
  | cons item lead =>
      cases item with
      | _ => simp [Cursor.atExpansionEnd, hitems, withItems]

end Reader

namespace Read

open Reader (Abreast BothAt Drained Spent Lost Cornered Over)

variable {α : Type} {us : List Item} {P : Reader → Prop} {r s t u : Reader} {v : Value}

/-! ## At the sentinel -/

/-- The values of a declaration end before the sentinel, or they go on to the end of the input. -/
theorem lands_declarationValues (n : Nat) (read : List Value) (h : r.Spent) :
    Lands Over (collect n declarationEnd read r) := by
  induction n generalizing read r with
  | zero =>
      rw [collect_zero]
      trivial
  | succ n ih =>
      rw [collect]
      rcases h.over_or_items with hover | hitems
      · have hend : declarationEnd read r = .ok (some read.reverse) r := by
          unfold declarationEnd
          rw [bind_ok (peek_run _ r)]
          rcases hover with hdrained | hcornered
          · rw [hdrained.peek]
            rfl
          · cases r.cursor.peek 0 with
            | none => rfl
            | some v =>
                dsimp only
                rw [bind_ok (peek_run _ r), hcornered.atExpansionEnd]
                rfl
        rw [bind_ok hend]
        exact hover
      · have hmore : declarationEnd read r = .ok none r := by
          unfold declarationEnd
          rw [bind_ok (peek_run _ r), Cursor.peek_of_blank Item.blank_nil hitems]
          dsimp only
          rw [bind_ok (peek_run _ r), Cursor.atExpansionEnd, hitems]
          rfl
        rw [bind_ok hmore]
        refine ((lands_values [] n).value h).bind fun found t ht => ?_
        cases found with
        | some v => exact ih _ (.inl ht)
        | none => exact ih _ (.inl ht)

/-- A skipped statement ends before the sentinel, or it goes on to the end of the input. -/
theorem lands_skipStatement (n : Nat) (skipped : Bool) (h : r.Spent) :
    Lands Over (skipStatement n skipped r) := by
  induction n generalizing skipped r with
  | zero => trivial
  | succ n ih =>
      rw [skipStatement, bind_ok (peek_run _ r)]
      rcases h.cases with hdrained | hpeek
      · rw [hdrained.peek]
        exact .inl hdrained
      · rw [hpeek]
        dsimp only
        rw [bind_ok (peek_run _ r)]
        split
        · next hend =>
            rcases h.over_or_items with hover | hitems
            · exact hover
            · rw [Cursor.atExpansionEnd, hitems, Bool.and_false] at hend
              cases hend
        · refine ((lands_values [] n).value h).bind fun found t ht => ?_
          cases found with
          | some v => exact ih true (.inl ht)
          | none => exact ih true (.inl ht)

/-- A lone dollar sign before the sentinel is skipped. -/
theorem lands_skipStatement_dollar {t : Token} (hpeek : r.cursor.peek 0 = some (.token t))
    (ht : t.isDelim "$" = true)
    (hstart : (r.cursor.checkDelim 0 "$" && r.cursor.check 1 .ident) = false)
    (hnext : Lands Spent (next r)) (n : Nat) :
    Lands Over (skipStatement n false r) := by
  cases n with
  | zero => trivial
  | succ n =>
      have hopen : (Value.token t).hasType .semicolon = false := by
        simp [Value.hasType, (Token.isDelim_iff.mp ht).1]
      rw [skipStatement, bind_ok (peek_run _ r), hpeek]
      dsimp only
      rw [bind_ok (peek_run _ r), Bool.false_and, if_neg Bool.false_ne_true, hopen,
        if_neg Bool.false_ne_true]
      refine (lands_value_dollar hpeek ht hstart hnext n).bind fun found t ht => ?_
      cases found with
      | some v => exact lands_skipStatement n true ht
      | none => exact lands_skipStatement n true ht

theorem lands_styleStatement_sentinel (n : Nat) (h : r.Spent) :
    Lands (fun t => t.Lost ∨ t.Cornered) (styleStatement n (.token sentinel) r) := by
  cases n with
  | zero => trivial
  | succ n =>
      have hstart : isVariableStart r = .ok false r := by
        rw [isVariableStart, peek_run, h.checkDelim (by decide), Bool.false_and]
      have hrun : styleStatement (n + 1) (.token sentinel) r =
          (do skipStatement n false; return none : Read (Option Entry)) r := by
        rw [styleStatement, if_neg (by decide), if_neg (by decide), bind_ok hstart]
        rfl
      rw [hrun]
      exact (lands_skipStatement n false h).bind fun _ t ht => ht.imp_left Drained.lost

/-! ## Statements -/

theorem parallel_declarationValues (hus : Item.Silent us) {n : Nat} {read : List Value}
    (h : Abreast us r s) :
    Parallel us Over (collect n declarationEnd read r) (collect n declarationEnd read s) := by
  induction n generalizing read r s with
  | zero =>
      rw [collect_zero]
      exact .stopped
  | succ n ih =>
      rcases h.front with hspent | ⟨v, hfront⟩
      · exact .of_lands (lands_declarationValues (n + 1) read hspent)
      have hend : Parallel us (fun _ => False) (declarationEnd read r) (declarationEnd read s) := by
        unfold declarationEnd
        refine .peek ?_
        simp only [hfront.left, hfront.right]
        refine .peek ?_
        rw [hfront.atExpansionEnd]
        split
        · exact .pure h _
        split
        · exact (parallel_next hfront).bind_sure fun _ t u h => .pure h _
        · exact .pure h _
      rw [collect]
      refine hend.bind_sure fun found t u h => ?_
      cases found with
      | some result => exact .pure h _
      | none =>
          refine ((parallel_values hus n).value h).bind (fun found t u h => ?_) fun found t ht => ?_
          · cases found with
            | some v => exact ih h
            | none => exact ih h
          · cases found with
            | some v => exact lands_declarationValues n _ ht
            | none => exact lands_declarationValues n _ ht

theorem parallel_declaration (hus : Item.Silent us) (h : Abreast us r s) (n : Nat) :
    Parallel us Over (declaration n r) (declaration n s) := by
  unfold declaration
  refine (parallel_expects (expects_consume _ rfl) rfl h).bind_sure fun name r s h => ?_
  refine .skip h (fun v t u hfront => ?_) fun t ht => ?_
  · refine (parallel_expects (expects_consume _ rfl) rfl hfront.abreast).bind_sure
      fun colon t u h => ?_
    refine (parallel_declarationValues hus h).bind (fun values t u h => ?_) fun values t ht => ?_
    · cases splitImportant (trimWhitespace values) with
      | ok result => exact .pure h _
      | error d => exact .stopped
    · cases splitImportant (trimWhitespace values) with
      | ok result => exact ht
      | error d => trivial
  · exact .skip ht ((lands_expects (expects_consume _ rfl) rfl ht).bind fun _ _ h => h.elim)

theorem parallel_skipStatement (hus : Item.Silent us) {n : Nat} {skipped : Bool}
    (h : Abreast us r s) :
    Parallel us Over (skipStatement n skipped r) (skipStatement n skipped s) := by
  induction n generalizing skipped r s with
  | zero => exact .stopped
  | succ n ih =>
      rcases h.front with hspent | ⟨v, hfront⟩
      · exact .of_lands (lands_skipStatement (n + 1) skipped hspent)
      rw [skipStatement]
      refine .peek ?_
      simp only [hfront.left, hfront.right]
      refine .peek ?_
      rw [hfront.atExpansionEnd]
      split
      · exact .pure h _
      split
      · exact (parallel_next hfront).bind_sure fun _ t u h => .pure h _
      · refine ((parallel_values hus n).value h).bind (fun found t u h => ?_) fun found t ht => ?_
        · cases found with
          | some v => exact (parallel_record h _).bind_sure fun _ t u h => ih h
          | none => exact ih h
        · cases found with
          | some v => exact lands_skipStatement n true ht
          | none => exact lands_skipStatement n true ht

theorem parallel_apart {x : Read α} (hx : Apart x) (h : Abreast us r s) :
    Parallel us P (x r) (x s) := by
  cases hrun : x r with
  | error e t => exact .stopped
  | ok a t =>
      obtain ⟨u, hrun', habreast⟩ := hx.abreast hrun h
      rw [hrun']
      exact .abreast habreast

theorem lands_apart {x : Read α} (hx : Apart x) (h : r.Lost) :
    Lands Lost (x r) := by
  cases hrun : x r with
  | error e t => trivial
  | ok a t =>
      have hcursor := (hx hrun []).1
      change t.Lost
      unfold Lost
      rw [hcursor]
      exact h

/-- The statement is read by both readers, unless the first one reads the sentinel or stops at the end
of a body right before it. -/
theorem parallel_styleStatement (hus : Item.Silent us) (hfront : BothAt us v r s) (n : Nat) :
    Parallel us (fun t => t.Lost ∨ t.Cornered) (styleStatement n v r) (styleStatement n v s) := by
  have hover (t : Reader) (ht : t.Over) : t.Lost ∨ t.Cornered := ht.imp_left Drained.lost
  have hskip (n : Nat) : Parallel us (fun t => t.Lost ∨ t.Cornered)
      ((do skipStatement n false; return none : Read (Option Entry)) r)
      ((do skipStatement n false; return none : Read (Option Entry)) s) := by
    refine (parallel_skipStatement hus hfront.abreast).bind (fun _ t u h => ?_) fun _ t ht => hover t ht
    exact .pure h _
  cases n with
  | zero => exact .stopped
  | succ n =>
      cases v with
      | token o =>
          rw [styleStatement]
          split
          · exact (parallel_next hfront).bind_sure fun _ t u h => .pure h _
          split
          · refine (parallel_atRule hus hfront.abreast n).bind (fun rule t u h => ?_) fun rule t ht => ?_
            · cases rule with
              | none => exact .pure h _
              | some rule =>
                  refine (parallel_apart (apart_resolveAtRule n rule true) h).bind_sure
                    fun entry t u h => ?_
                  exact .pure h _
            · cases rule with
              | none => exact .inl ht
              | some rule =>
                  refine (lands_apart (apart_resolveAtRule n rule true) ht).bind fun entry t ht => ?_
                  exact .inl ht
          refine .peek ?_
          rcases isVariableStart_cases hfront with hstart | ⟨hdollar, hstart, hnext⟩
          · rw [hstart]
            split
            · refine ((parallel_values hus n).variableUse hfront.abreast).bind (fun _ t u h => ?_)
                fun _ t ht => .inl ht.lost
              exact .pure h _
            split
            · refine (parallel_declaration hus hfront.abreast n).bind (fun d t u h => ?_)
                fun d t ht => hover t ht
              exact .pure h _
            split
            · refine (parallel_qualifiedRule hus hfront.abreast n).bind (fun rule t u h => ?_)
                fun rule t ht => ?_
              · refine (parallel_apart (apart_styleRule n rule) h).bind_sure fun entry t u h => ?_
                exact .pure h _
              · refine (lands_apart (apart_styleRule n rule) ht.lost).bind fun entry t ht => ?_
                exact .inl ht
            · exact hskip n
          · have htype : o.type ≠ .ident ∧ o.isDelim "&" = false := by
              obtain ⟨htype, htext⟩ := Token.isDelim_iff.mp (show o.isDelim "$" = true from hdollar)
              simp [Token.isDelim, htype, htext]
            rw [hstart, if_neg Bool.false_ne_true, if_neg htype.1, htype.2, if_neg Bool.false_ne_true]
            refine .of_lands ?_
            refine (lands_skipStatement_dollar hfront.left hdollar hstart hnext n).bind fun _ t ht => ?_
            exact hover t ht
      | _ =>
          rw [styleStatement]
          · exact hskip n
          · rintro _ ⟨⟩

end Read
end Cascade

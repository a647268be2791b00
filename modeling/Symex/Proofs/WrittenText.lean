import Std.Data.String.ToNat
import Symex.Smt.Term

/-!
Reading a text from its front. A text that goes on with different things after the same start is cut at
one place only, if what stands there is a run of characters of one kind, a number, a token, or an
S-expression made of tokens. So an S-expression of tokens is determined by its text.
-/

namespace Symex

/-! ### Runs of characters -/

/-- A text that does not go on with a character of a kind. -/
def Stops (p : Char → Bool) (rest : List Char) : Prop := ∀ c ∈ rest.head?, p c = false

@[simp] theorem stops_nil (p : Char → Bool) : Stops p [] := by simp [Stops]

@[simp] theorem stops_cons {p : Char → Bool} {c : Char} {rest : List Char} :
    Stops p (c :: rest) ↔ p c = false := by simp [Stops]

/-- A run of characters of a kind ends where the text stops to have them. -/
theorem run_inj {p : Char → Bool} {a b r s : List Char} (ha : ∀ c ∈ a, p c = true)
    (hb : ∀ c ∈ b, p c = true) (hr : Stops p r) (hs : Stops p s) (h : a ++ r = b ++ s) :
    a = b ∧ r = s := by
  induction a generalizing b with
  | nil =>
    cases b with
    | nil => exact ⟨rfl, h⟩
    | cons d b =>
      obtain rfl : r = d :: (b ++ s) := h
      rw [stops_cons, hb d (by simp)] at hr
      cases hr
  | cons c a ih =>
    cases b with
    | nil =>
      obtain rfl : c :: (a ++ r) = s := h
      rw [stops_cons, ha c (by simp)] at hs
      cases hs
    | cons d b =>
      rw [List.forall_mem_cons] at ha hb
      obtain ⟨rfl, htail⟩ := List.cons.inj h
      obtain ⟨rfl, hrs⟩ := ih ha.2 hb.2 htail
      exact ⟨rfl, hrs⟩

/-! ### Numbers -/

theorem isDigit_of_mem_toString {n : Nat} {c : Char} (h : c ∈ (toString n).toList) :
    c.isDigit = true := by
  rw [Nat.toString_eq_ofList_toDigits, String.toList_ofList] at h
  exact Nat.isDigit_of_mem_toDigits (by decide) (by decide) h

/-- A number starts with a digit. -/
theorem exists_toList_toString (n : Nat) : ∃ c cs, (toString n).toList = c :: cs ∧ c.isDigit = true := by
  obtain ⟨c, cs, hcs⟩ := List.exists_cons_of_ne_nil (l := (toString n).toList)
    (by rw [Nat.toString_eq_ofList_toDigits, String.toList_ofList]; exact Nat.toDigits_ne_nil)
  exact ⟨c, cs, hcs, isDigit_of_mem_toString (hcs ▸ List.mem_cons_self)⟩

theorem natText_inj {m n : Nat} {r s : List Char} (hr : Stops Char.isDigit r) (hs : Stops Char.isDigit s)
    (h : (toString m).toList ++ r = (toString n).toList ++ s) : m = n ∧ r = s := by
  obtain ⟨hmn, hrs⟩ := run_inj (fun c hc => isDigit_of_mem_toString hc)
    (fun c hc => isDigit_of_mem_toString hc) hr hs h
  exact ⟨Nat.repr_inj.1 (String.toList_inj.1 hmn), hrs⟩

/-- An integer is written as a number, after a sign if it is negative. -/
theorem toList_toString_int (i : Int) :
    (toString i).toList = (if i < 0 then ['-'] else []) ++ (toString i.natAbs).toList := by
  cases i with
  | ofNat n => rfl
  | negSucc n =>
    rw [if_pos (Int.negSucc_lt_zero n)]
    exact String.toList_append

theorem intText_inj {i j : Int} {r s : List Char} (hr : Stops Char.isDigit r) (hs : Stops Char.isDigit s)
    (h : (toString i).toList ++ r = (toString j).toList ++ s) : i = j ∧ r = s := by
  rw [toList_toString_int, toList_toString_int, List.append_assoc, List.append_assoc] at h
  obtain ⟨c, cs, hi, hc⟩ := exists_toList_toString i.natAbs
  obtain ⟨d, ds, hj, hd⟩ := exists_toList_toString j.natAbs
  by_cases hneg : i < 0 <;> by_cases hneg' : j < 0
  · rw [if_pos hneg, if_pos hneg'] at h
    obtain ⟨habs, hrs⟩ := natText_inj hr hs (List.cons.inj h).2
    exact ⟨by omega, hrs⟩
  · -- a sign is no digit
    rw [if_pos hneg, if_neg hneg', hj] at h
    rw [← (List.cons.inj h).1] at hd
    cases hd
  · rw [if_neg hneg, if_pos hneg', hi] at h
    rw [(List.cons.inj h).1] at hc
    cases hc
  · rw [if_neg hneg, if_neg hneg'] at h
    obtain ⟨habs, hrs⟩ := natText_inj hr hs h
    exact ⟨by omega, hrs⟩

/-! ### Tokens -/

namespace Smt

/-- A character that neither separates tokens nor quotes them. -/
def isWordChar (c : Char) : Bool := !(c == ' ' || c == '(' || c == ')' || c == '|')

/-- A text that is read as one token: a word, or anything without bars between bars. -/
inductive IsToken : List Char → Prop
  | word {cs : List Char} (hne : cs ≠ []) (h : ∀ c ∈ cs, isWordChar c = true) : IsToken cs
  | quoted {cs : List Char} (h : ∀ c ∈ cs, (c != '|') = true) : IsToken ('|' :: (cs ++ ['|']))

/-- A token starts with a bar or with a character of words. -/
theorem IsToken.exists_cons {t : List Char} (h : IsToken t) :
    ∃ c cs, t = c :: cs ∧ (c = '|' ∨ isWordChar c = true) := by
  cases h with
  | word hne h =>
    obtain ⟨c, cs, rfl⟩ := List.exists_cons_of_ne_nil hne
    exact ⟨c, cs, rfl, .inr (h c (by simp))⟩
  | quoted h => exact ⟨_, _, rfl, .inl rfl⟩

/-- A word does not start with a bar. -/
theorem word_ne_quoted {t cs r s : List Char} (hne : t ≠ []) (h : ∀ c ∈ t, isWordChar c = true) :
    t ++ r ≠ '|' :: (cs ++ ['|']) ++ s := by
  intro heq
  obtain ⟨c, t, rfl⟩ := List.exists_cons_of_ne_nil hne
  have hc := h c (by simp)
  rw [(List.cons.inj heq).1] at hc
  cases hc

theorem IsToken.append_inj {t u r s : List Char} (ht : IsToken t) (hu : IsToken u)
    (hr : Stops isWordChar r) (hs : Stops isWordChar s) (h : t ++ r = u ++ s) : t = u ∧ r = s := by
  cases ht with
  | word hne ht =>
    cases hu with
    | word hne' hu => exact run_inj ht hu hr hs h
    | quoted hu => exact absurd h (word_ne_quoted hne ht)
  | quoted ht =>
    cases hu with
    | word hne' hu => exact absurd h.symm (word_ne_quoted hne' hu)
    | quoted hu =>
      -- the first bar inside ends the token, whatever follows
      rw [List.cons_append, List.cons_append, List.append_assoc, List.append_assoc] at h
      obtain ⟨rfl, hrs⟩ := run_inj ht hu (by simp) (by simp) (List.cons.inj h).2
      exact ⟨rfl, (List.cons.inj hrs).2⟩

/-- The characters of plain symbols are characters of words. -/
theorem isWordChar_of_plain {c : Char} (h : (c.isAlphanum || isSymbolMark c) = true) :
    isWordChar c = true := by
  cases hc : isWordChar c with
  | true => rfl
  | false =>
    simp only [isWordChar, Bool.not_eq_false', Bool.or_eq_true, beq_iff_eq] at hc
    rcases hc with ((rfl | rfl) | rfl) | rfl <;> exact absurd h (by decide)

theorem isWordChar_of_mem_toString {n : Nat} {c : Char} (h : c ∈ (toString n).toList) :
    isWordChar c = true :=
  isWordChar_of_plain (by simp [Char.isAlphanum, isDigit_of_mem_toString h])

/-- Plain symbols do not start with digits. -/
theorem not_isDigit_of_start {c : Char} (h : (c.isAlpha || isSymbolMark c) = true) : c.isDigit = false := by
  rcases Bool.or_eq_true_iff.1 h with halpha | hmark
  · have hletter : 'A'.toNat ≤ c.toNat := by
      rcases Bool.or_eq_true_iff.1 halpha with hupper | hlower
      · exact UInt32.le_iff_toNat_le.1 (of_decide_eq_true hupper).1
      · have hle := UInt32.le_iff_toNat_le.1 (of_decide_eq_true (Bool.and_eq_true_iff.1 hlower).1)
        exact Nat.le_trans (by decide) hle
    refine eq_false_of_ne_true fun hdigit => ?_
    have hdigit : c.toNat ≤ '9'.toNat := (Char.isDigit_iff_toNat.1 hdigit).2
    exact absurd (Nat.le_trans hletter hdigit) (by decide)
  · have hmarks : "~!@$%^&*_-+=<>.?/".toList.all (fun d => !d.isDigit) = true := by decide
    simpa using List.all_eq_true.1 hmarks c (List.contains_iff_mem.1 hmark)

/-- A plain symbol stands for itself and starts with no digit; any other name is put between bars. -/
theorem symbol_cases (name : String) :
    (symbol name = name ∧ ∃ c cs, name.toList = c :: cs ∧ (c.isAlpha || isSymbolMark c) = true ∧
      ∀ d ∈ name.toList, (d.isAlphanum || isSymbolMark d) = true) ∨
    isPlainSymbol name = false ∧ (symbol name).toList = '|' :: (name.toList ++ ['|']) := by
  cases hplain : isPlainSymbol name with
  | true =>
    refine .inl ⟨if_pos hplain, ?_⟩
    unfold isPlainSymbol at hplain
    split at hplain
    · cases hplain
    · next c cs hcs =>
      rw [Bool.and_eq_true, List.all_eq_true] at hplain
      exact ⟨c, cs, hcs, hplain.1, hcs ▸ hplain.2⟩
  | false =>
    refine .inr ⟨rfl, ?_⟩
    rw [symbol, if_neg (by simp [hplain]), String.toList_append, String.toList_append]
    rfl

theorem symbol_isToken {name : String} (h : '|' ∉ name.toList) : IsToken (symbol name).toList := by
  rcases symbol_cases name with ⟨hsymbol, c, cs, hcs, -, hall⟩ | ⟨-, hquoted⟩
  · rw [hsymbol]
    exact .word (by simp [hcs]) fun d hd => isWordChar_of_plain (hall d hd)
  · rw [hquoted]
    refine .quoted fun c hc => ?_
    simpa using fun hbar : c = '|' => h (hbar ▸ hc)

/-! ### S-expressions -/

namespace SExpr

/-- All atoms are tokens. -/
inductive Tokenized : SExpr → Prop
  | atom {s : String} (h : IsToken s.toList) : Tokenized (.atom s)
  | list {xs : List SExpr} (h : ∀ x ∈ xs, Tokenized x) : Tokenized (.list xs)

namespace Tokenized

theorem word {w : String} (h : w.toList ≠ [] ∧ w.toList.all isWordChar = true) : Tokenized (.atom w) :=
  .atom (.word h.1 (List.all_eq_true.1 h.2))

theorem numeral (n : Nat) : Tokenized (.atom (toString n)) := by
  obtain ⟨c, cs, hcs, -⟩ := exists_toList_toString n
  exact .word ⟨by rw [hcs]; simp, List.all_eq_true.2 fun d hd => isWordChar_of_mem_toString hd⟩

theorem symbol {name : String} (h : '|' ∉ name.toList) : Tokenized (.atom (symbol name)) :=
  .atom (symbol_isToken h)

theorem triple {x y z : SExpr} (hx : x.Tokenized) (hy : y.Tokenized) (hz : z.Tokenized) :
    Tokenized (.list [x, y, z]) :=
  .list (by simp [hx, hy, hz])

end Tokenized

/-- The items after the first one. -/
def moreItems (xs : List SExpr) : List Char := xs.flatMap fun x => ' ' :: x.text.toList

theorem toList_textItems (x : SExpr) (xs : List SExpr) :
    (textItems (x :: xs)).toList = x.text.toList ++ moreItems xs := by
  induction xs generalizing x with
  | nil => simp [textItems, moreItems]
  | cons y ys ih =>
    have hmore : moreItems (y :: ys) = ' ' :: (textItems (y :: ys)).toList := by
      rw [ih y]
      rfl
    rw [hmore, textItems, List.map_cons, List.map_cons, String.intercalate_cons_cons,
      String.toList_append, String.toList_append, List.append_assoc]
    rfl

theorem toList_text_list (xs : List SExpr) :
    (text (.list xs)).toList = '(' :: ((textItems xs).toList ++ [')']) := by
  rw [text_list, String.toList_append, String.toList_append]
  rfl

/-- An S-expression does not start with what ends one. -/
theorem Tokenized.exists_cons {x : SExpr} (h : x.Tokenized) :
    ∃ c cs, x.text.toList = c :: cs ∧ c ≠ ')' := by
  cases h with
  | atom h =>
    obtain ⟨c, cs, hcs, hc⟩ := h.exists_cons
    refine ⟨c, cs, by rw [text_atom, hcs], ?_⟩
    rintro rfl
    revert hc
    decide
  | list h => exact ⟨_, _, toList_text_list _, by decide⟩

/-- Items do not start with what ends their list. -/
theorem textItems_ne {x : SExpr} (hx : x.Tokenized) (xs : List SExpr) (r s : List Char) :
    ')' :: r ≠ (textItems (x :: xs)).toList ++ s := by
  intro h
  obtain ⟨c, cs, hcs, hc⟩ := hx.exists_cons
  rw [toList_textItems, hcs] at h
  exact hc (List.cons.inj h).1.symm

theorem stops_moreItems (xs : List SExpr) (r : List Char) :
    Stops isWordChar (moreItems xs ++ ')' :: r) := by
  cases xs with
  | nil => simp [moreItems, isWordChar]
  | cons x xs => simp [moreItems, isWordChar]

/-- Where an S-expression ends is determined by the text, whatever comes after it. -/
def Readable (x : SExpr) : Prop :=
  ∀ (y : SExpr) (r s : List Char), y.Tokenized → Stops isWordChar r → Stops isWordChar s →
    x.text.toList ++ r = y.text.toList ++ s → x = y ∧ r = s

theorem moreItems_inj {xs ys : List SExpr} {r s : List Char} (hxs : ∀ x ∈ xs, x.Readable)
    (hys : ∀ y ∈ ys, y.Tokenized) (h : moreItems xs ++ ')' :: r = moreItems ys ++ ')' :: s) :
    xs = ys ∧ r = s := by
  induction xs generalizing ys with
  | nil =>
    cases ys with
    | nil => exact ⟨rfl, (List.cons.inj h).2⟩
    | cons y ys => simp [moreItems] at h
  | cons x xs ih =>
    cases ys with
    | nil => simp [moreItems] at h
    | cons y ys =>
      rw [List.forall_mem_cons] at hxs hys
      have hitem : x.text.toList ++ (moreItems xs ++ ')' :: r) =
          y.text.toList ++ (moreItems ys ++ ')' :: s) := by
        simpa [moreItems] using h
      obtain ⟨rfl, hrest⟩ := hxs.1 y _ _ hys.1 (stops_moreItems xs r) (stops_moreItems ys s) hitem
      obtain ⟨rfl, hrs⟩ := ih hxs.2 hys.2 hrest
      exact ⟨rfl, hrs⟩

theorem items_inj {xs ys : List SExpr} {r s : List Char} (hxs : ∀ x ∈ xs, x.Readable)
    (hxs' : ∀ x ∈ xs, x.Tokenized) (hys : ∀ y ∈ ys, y.Tokenized)
    (h : (textItems xs).toList ++ ')' :: r = (textItems ys).toList ++ ')' :: s) : xs = ys ∧ r = s := by
  cases xs with
  | nil =>
    cases ys with
    | nil => exact ⟨rfl, (List.cons.inj h).2⟩
    | cons y ys => exact absurd h (textItems_ne (hys y (by simp)) ys r _)
  | cons x xs =>
    cases ys with
    | nil => exact absurd h.symm (textItems_ne (hxs' x (by simp)) xs s _)
    | cons y ys =>
      rw [toList_textItems, toList_textItems, List.append_assoc, List.append_assoc] at h
      rw [List.forall_mem_cons] at hxs hys
      obtain ⟨rfl, hrest⟩ := hxs.1 y _ _ hys.1 (stops_moreItems xs r) (stops_moreItems ys s) h
      obtain ⟨rfl, hrs⟩ := moreItems_inj hxs.2 hys.2 hrest
      exact ⟨rfl, hrs⟩

/-- A token does not start with a parenthesis. -/
theorem atom_ne_list {s : String} {xs : List SExpr} {r r' : List Char} (hs : IsToken s.toList) :
    (text (.atom s)).toList ++ r ≠ (text (.list xs)).toList ++ r' := by
  intro h
  obtain ⟨c, cs, hcs, hc⟩ := hs.exists_cons
  rw [text_atom, hcs, toList_text_list] at h
  rw [(List.cons.inj h).1] at hc
  revert hc
  decide

theorem Tokenized.readable {x : SExpr} (hx : x.Tokenized) : x.Readable := by
  induction hx with
  | atom hx =>
    rintro y r s hy hr hs h
    cases hy with
    | atom hy =>
      rw [text_atom, text_atom] at h
      obtain ⟨hxy, hrs⟩ := hx.append_inj hy hr hs h
      exact ⟨congrArg SExpr.atom (String.toList_inj.1 hxy), hrs⟩
    | list hys => exact absurd h (atom_ne_list hx)
  | list hxs ih =>
    rintro y r s hy hr hs h
    cases hy with
    | atom hy => exact absurd h.symm (atom_ne_list hy)
    | list hys =>
      rw [toList_text_list, toList_text_list, List.cons_append, List.cons_append, List.append_assoc,
        List.append_assoc] at h
      obtain ⟨rfl, hrs⟩ := items_inj ih hxs hys (List.cons.inj h).2
      exact ⟨rfl, hrs⟩

/-- **An S-expression of tokens is determined by its text.** -/
theorem Tokenized.text_inj {x y : SExpr} (hx : x.Tokenized) (hy : y.Tokenized) (h : x.text = y.text) :
    x = y :=
  (hx.readable y [] [] hy (stops_nil _) (stops_nil _) (by rw [h])).1

end SExpr

end Smt

end Symex

import Symex.Expr.Printer
import Symex.Proofs.WrittenText

/-!
The infix form determines an expression, but for the types that it does not show. How a form opens tells
labels, numbers, casts and negations from each other and from groups, which are choices and nodes of
operators. The first operand of a group ends where its own form ends, and what comes after it tells a choice
from a node, and the operators of nodes from each other.
-/

namespace Symex

/-! ### What is written -/

theorem Operator.symbol_inj {op op' : Operator} {r s : List Char}
    (h : op.symbol.toList ++ r = op'.symbol.toList ++ s) : op = op' ∧ r = s := by
  cases op <;> cases op' <;> simp_all [symbol]

theorem Ty.name_inj {ty ty' : Ty} {r s : List Char}
    (h : ty.name.toList ++ ')' :: r = ty'.name.toList ++ ')' :: s) : ty = ty' ∧ r = s := by
  cases ty <;> cases ty' <;> simp_all [name]

/-- Widening to the widest type keeps what is written. -/
theorem Scalar.text_convert_int (s : Scalar) : (s.convert .int).text = s.text := by
  have htoInt : (s.convert .int).toInt = s.toInt := by
    cases s with
    | bool b => cases b <;> rfl
    | char v => exact BitVec.toInt_signExtend_of_le (by decide)
    | short v => exact BitVec.toInt_signExtend_of_le (by decide)
    | int v => exact BitVec.toInt_signExtend_of_le (by decide)
  rw [text, text, htoInt]

namespace Expr

/-- A character of a label. -/
def isLabelChar (c : Char) : Bool := c != '[' && c != ']' && c != ':'

/-- A name that ends where its label or its value goes on. -/
def IsLabel (name : String) : Prop := ∀ c ∈ name.toList, isLabelChar c = true

instance (name : String) : Decidable (IsLabel name) :=
  decidable_of_iff (name.toList.all isLabelChar = true) List.all_eq_true

/-- An expression of negations and of nodes with two operands or more of a binary operator, in which all
names are labels. -/
inductive Printable : Expr → Prop
  | any {name : String} (n : Nat) (ty : Ty) (hname : IsLabel name) : Printable (.any n name ty)
  | number (n : Nat) (value : Scalar) : Printable (.lit n value none)
  | named {name : String} (n : Nat) (value : Scalar) (hname : IsLabel name) :
    Printable (.lit n value (some name))
  | cast {e : Expr} (n : Nat) (ty : Ty) (he : Printable e) : Printable (.cast n ty e)
  | not {e : Expr} (n : Nat) (he : Printable e) : Printable (.unary n .not e)
  | ite {c y z : Expr} (n : Nat) (hc : Printable c) (hy : Printable y) (hz : Printable z) :
    Printable (.ite n c y z)
  | nary {op : Operator} {es : List Expr} (n : Nat) (ty : Ty) (hop : op.isUnary = false)
    (hlen : 2 ≤ es.length) (hes : ∀ e ∈ es, Printable e) : Printable (.nary n op ty es)

mutual
/-- An expression without stamps and without the types that are not written: those of variables, of
literals and of the operands of nodes. -/
def untyped : Expr → Expr
  | .any _ name _ => .any 0 name .int
  | .lit _ value name => .lit 0 (value.convert .int) name
  | .cast _ ty e => .cast 0 ty e.untyped
  | .unary _ op e => .unary 0 op e.untyped
  | .ite _ c y n => .ite 0 c.untyped y.untyped n.untyped
  | .nary _ op _ es => .nary 0 op .int (untypedAll es)
def untypedAll : List Expr → List Expr
  | [] => []
  | e :: es => e.untyped :: untypedAll es
end

theorem untypedAll_eq_map (es : List Expr) : untypedAll es = es.map untyped := by
  induction es with
  | nil => rfl
  | cons e es ih => rw [untypedAll, ih, List.map_cons]

/-- The operands after the first one. -/
def moreOperands (op : Operator) (es : List Expr) : List Char :=
  es.flatMap fun e => op.symbol.toList ++ e.text.toList

theorem textOperands_cons_cons (symbol : String) (e f : Expr) (es : List Expr) :
    textOperands symbol (e :: f :: es) = e.text ++ symbol ++ textOperands symbol (f :: es) := by
  rw [textOperands]
  simp

theorem toList_textOperands (op : Operator) (e : Expr) (es : List Expr) :
    (textOperands op.symbol (e :: es)).toList = e.text.toList ++ moreOperands op es := by
  induction es generalizing e with
  | nil => simp [textOperands, moreOperands]
  | cons f fs ih =>
    rw [textOperands_cons_cons, String.toList_append, String.toList_append, ih f, List.append_assoc]
    simp [moreOperands]

section
variable (n : Nat) (r : List Char)

theorem toList_any (name : String) (ty : Ty) :
    (text (.any n name ty)).toList ++ r = '[' :: (name.toList ++ ']' :: r) := by
  simp [text]

theorem toList_number (value : Scalar) :
    (text (.lit n value none)).toList ++ r = (toString value.toInt).toList ++ r := by
  rw [text, Scalar.text]

theorem toList_named (value : Scalar) (name : String) :
    (text (.lit n value (some name))).toList ++ r =
      '[' :: (name.toList ++ ':' :: (value.text.toList ++ ']' :: r)) := by
  simp [text]

theorem toList_cast (ty : Ty) (e : Expr) :
    (text (.cast n ty e)).toList ++ r =
      '(' :: '(' :: (ty.name.toList ++ ')' :: '(' :: (e.text.toList ++ ')' :: ')' :: r)) := by
  simp [text]

theorem toList_not (e : Expr) :
    (text (.unary n .not e)).toList ++ r = '(' :: '!' :: (e.text.toList ++ ')' :: r) := by
  simp [text, Operator.symbol]

theorem toList_ite (c y z : Expr) :
    (text (.ite n c y z)).toList ++ r =
      '(' :: (c.text.toList ++ '?' :: (y.text.toList ++ ':' :: (z.text.toList ++ ')' :: r))) := by
  simp [text]

theorem toList_nary (op : Operator) (ty : Ty) (e : Expr) (es : List Expr) :
    (text (.nary n op ty (e :: es))).toList ++ r =
      '(' :: (e.text.toList ++ (moreOperands op es ++ ')' :: r)) := by
  simp [text, toList_textOperands]

end

/-! ### How a form opens -/

/-- What a form can be by the way it opens. -/
inductive Opening where
  | label
  | number
  | cast
  | negation
  | group

/-- Letters after two parentheses are a type. -/
def opening : List Char → Opening
  | '[' :: _ => .label
  | '(' :: '!' :: _ => .negation
  | '(' :: '(' :: c :: _ => if c.isAlpha then .cast else .group
  | '(' :: _ => .group
  | _ => .number

def kind : Expr → Opening
  | .any _ _ _ | .lit _ _ (some _) => .label
  | .lit _ _ none => .number
  | .cast _ _ _ => .cast
  | .unary _ _ _ => .negation
  | .ite _ _ _ _ | .nary _ _ _ _ => .group

/-- A character that a form can start with. -/
def isOpener (c : Char) : Bool := c == '[' || c == '(' || c == '-' || c.isDigit

theorem exists_toList_toString_int (i : Int) :
    ∃ c cs, (toString i).toList = c :: cs ∧ (c = '-' ∨ c.isDigit = true) := by
  obtain ⟨c, cs, hcs, hc⟩ := exists_toList_toString i.natAbs
  rw [toList_toString_int, hcs]
  split
  · exact ⟨_, _, rfl, .inl rfl⟩
  · exact ⟨_, _, rfl, .inr hc⟩

/-- No form starts with a letter. -/
theorem not_isAlpha_of_opener {c : Char} (h : isOpener c = true) : c.isAlpha = false := by
  simp only [isOpener, Bool.or_eq_true, beq_iff_eq] at h
  rcases h with ((rfl | rfl) | rfl) | hdigit
  · decide
  · decide
  · decide
  · cases halpha : c.isAlpha with
    | false => rfl
    | true =>
      rw [Smt.not_isDigit_of_start (by simp [halpha])] at hdigit
      cases hdigit

namespace Printable

variable {e : Expr}

/-- A form starts with an opener, and no letter comes after a parenthesis that it starts with. -/
theorem exists_opener (h : e.Printable) (r : List Char) :
    ∃ c cs, e.text.toList ++ r = c :: cs ∧ isOpener c = true ∧
      (c = '(' → ∃ d ds, cs = d :: ds ∧ d.isAlpha = false) := by
  induction h generalizing r with
  | any n ty hname => exact ⟨_, _, toList_any n r _ ty, rfl, by simp⟩
  | number n value =>
    obtain ⟨c, cs, hcs, hc⟩ := exists_toList_toString_int value.toInt
    rw [toList_number, hcs]
    rcases hc with rfl | hc
    · exact ⟨_, _, rfl, rfl, by simp⟩
    · refine ⟨_, _, rfl, by simp [isOpener, hc], ?_⟩
      rintro rfl
      cases hc
  | named n value hname => exact ⟨_, _, toList_named n r value _, rfl, by simp⟩
  | cast n ty he ih => exact ⟨_, _, toList_cast n r ty _, rfl, fun _ => ⟨_, _, rfl, rfl⟩⟩
  | not n he ih => exact ⟨_, _, toList_not n r _, rfl, fun _ => ⟨_, _, rfl, rfl⟩⟩
  | ite n hc hy hz ihc ihy ihz =>
    obtain ⟨d, ds, hds, hd, -⟩ := ihc _
    exact ⟨_, _, toList_ite n r _ _ _, rfl, fun _ => ⟨d, ds, hds, not_isAlpha_of_opener hd⟩⟩
  | @nary op es n ty hop hlen hes ih =>
    obtain ⟨e, es, rfl⟩ := List.exists_cons_of_length_pos (by omega : 0 < es.length)
    obtain ⟨d, ds, hds, hd, -⟩ := ih e (by simp) _
    exact ⟨_, _, toList_nary n r op ty e es, rfl, fun _ => ⟨d, ds, hds, not_isAlpha_of_opener hd⟩⟩

/-- A parenthesis before a form opens a group. -/
theorem opening_group (h : e.Printable) (r : List Char) :
    opening ('(' :: (e.text.toList ++ r)) = .group := by
  obtain ⟨c, cs, hcs, hc, hnext⟩ := h.exists_opener r
  by_cases hparen : c = '('
  · obtain ⟨d, ds, rfl, hd⟩ := hnext hparen
    rw [hcs, hparen]
    simp [opening, hd]
  · have hbang : c ≠ '!' := by
      rintro rfl
      cases hc
    rw [hcs]
    simp [opening, hparen, hbang]

/-- **How a form opens tells what it is.** -/
theorem opening_eq (h : e.Printable) (r : List Char) : opening (e.text.toList ++ r) = e.kind := by
  cases h with
  | any n ty hname =>
    rw [toList_any]
    rfl
  | number n value =>
    obtain ⟨c, cs, hcs, hc⟩ := exists_toList_toString_int value.toInt
    have hlabel : c ≠ '[' := by
      rintro rfl
      exact absurd hc (by decide)
    have hparen : c ≠ '(' := by
      rintro rfl
      exact absurd hc (by decide)
    rw [toList_number, hcs]
    simp [opening, hlabel, hparen, kind]
  | named n value hname =>
    rw [toList_named]
    rfl
  | cast n ty he =>
    rw [toList_cast]
    cases ty <;> rfl
  | not n he =>
    rw [toList_not]
    rfl
  | ite n hc hy hz =>
    rw [toList_ite]
    exact hc.opening_group _
  | @nary op es n ty hop hlen hes =>
    obtain ⟨e, es, rfl⟩ := List.exists_cons_of_length_pos (by omega : 0 < es.length)
    rw [toList_nary]
    exact (hes e (by simp)).opening_group _

end Printable

/-! ### Where a form ends -/

/-- Where a form ends is determined by the text, whatever comes after it but digits. -/
def Readable (e : Expr) : Prop :=
  ∀ (f : Expr) (r s : List Char), f.Printable → Stops Char.isDigit r → Stops Char.isDigit s →
    e.text.toList ++ r = f.text.toList ++ s → e.untyped = f.untyped ∧ r = s

theorem label_inj {a b : String} {r s : List Char} (ha : IsLabel a) (hb : IsLabel b)
    (hr : Stops isLabelChar r) (hs : Stops isLabelChar s) (h : a.toList ++ r = b.toList ++ s) :
    a = b ∧ r = s := by
  obtain ⟨hab, hrs⟩ := run_inj ha hb hr hs h
  exact ⟨String.toList_inj.1 hab, hrs⟩

theorem value_inj {v w : Scalar} {r s : List Char} (hr : Stops Char.isDigit r) (hs : Stops Char.isDigit s)
    (h : v.text.toList ++ r = w.text.toList ++ s) : v.convert .int = w.convert .int ∧ r = s := by
  obtain ⟨hvw, hrs⟩ := intText_inj hr hs h
  exact ⟨congrArg (Scalar.ofInt .int) hvw, hrs⟩

theorem stops_moreOperands (op : Operator) (es : List Expr) (r : List Char) :
    Stops Char.isDigit (moreOperands op es ++ ')' :: r) := by
  cases es with
  | nil => exact stops_cons.2 rfl
  | cons e es => cases op <;> exact stops_cons.2 rfl

/-- An operator neither ends a group nor goes on with the arms of a choice. -/
theorem moreOperands_ne {c : Char} (hc : c = ')' ∨ c = '?') (op : Operator) (e : Expr) (es : List Expr)
    (r s : List Char) : c :: r ≠ moreOperands op (e :: es) ++ s := by
  intro h
  rcases hc with rfl | rfl <;> cases op <;> exact absurd (List.cons.inj h).1 (by decide)

theorem moreOperands_inj {op op' : Operator} {es fs : List Expr} {r s : List Char}
    (hes : ∀ e ∈ es, e.Readable) (hfs : ∀ f ∈ fs, f.Printable)
    (h : moreOperands op es ++ ')' :: r = moreOperands op' fs ++ ')' :: s) :
    es.map untyped = fs.map untyped ∧ (es ≠ [] → op = op') ∧ r = s := by
  induction es generalizing fs with
  | nil =>
    cases fs with
    | nil => exact ⟨rfl, fun hne => absurd rfl hne, (List.cons.inj h).2⟩
    | cons f fs => exact absurd h (moreOperands_ne (.inl rfl) op' f fs r _)
  | cons e es ih =>
    cases fs with
    | nil => exact absurd h.symm (moreOperands_ne (.inl rfl) op e es s _)
    | cons f fs =>
      rw [List.forall_mem_cons] at hes hfs
      have hoperand : op.symbol.toList ++ (e.text.toList ++ (moreOperands op es ++ ')' :: r)) =
          op'.symbol.toList ++ (f.text.toList ++ (moreOperands op' fs ++ ')' :: s)) := by
        simpa [moreOperands] using h
      obtain ⟨rfl, htext⟩ := Operator.symbol_inj hoperand
      obtain ⟨hef, hrest⟩ :=
        hes.1 f _ _ hfs.1 (stops_moreOperands op es r) (stops_moreOperands op fs s) htext
      obtain ⟨hmap, -, hrs⟩ := ih hes.2 hfs.2 hrest
      exact ⟨by rw [List.map_cons, List.map_cons, hef, hmap], fun _ => rfl, hrs⟩

theorem kind_eq {e f : Expr} {r s : List Char} (he : e.Printable) (hf : f.Printable)
    (h : e.text.toList ++ r = f.text.toList ++ s) : e.kind = f.kind := by
  rw [← he.opening_eq r, ← hf.opening_eq s, h]

section
variable {n : Nat}

theorem any_readable {name : String} {ty : Ty} (hname : IsLabel name) : (any n name ty).Readable := by
  intro f r s hf _ _ h
  have hkind := kind_eq (.any n ty hname) hf h
  cases hf with
  | any m u hname' =>
    rw [toList_any, toList_any] at h
    obtain ⟨rfl, hrs⟩ := label_inj hname hname' (stops_cons.2 rfl) (stops_cons.2 rfl) (List.cons.inj h).2
    exact ⟨rfl, (List.cons.inj hrs).2⟩
  | named m w hname' =>
    -- the label of a literal goes on with its value
    rw [toList_any, toList_named] at h
    obtain ⟨-, hrs⟩ := label_inj hname hname' (stops_cons.2 rfl) (stops_cons.2 rfl) (List.cons.inj h).2
    exact absurd (List.cons.inj hrs).1 (by decide)
  | _ => cases hkind

theorem number_readable (value : Scalar) : (lit n value none).Readable := by
  intro f r s hf hr hs h
  have hkind := kind_eq (.number n value) hf h
  cases hf with
  | number m w =>
    rw [toList_number, toList_number] at h
    obtain ⟨hvw, hrs⟩ := value_inj hr hs h
    exact ⟨congrArg (lit 0 · none) hvw, hrs⟩
  | _ => cases hkind

theorem named_readable {name : String} (value : Scalar) (hname : IsLabel name) :
    (lit n value (some name)).Readable := by
  intro f r s hf _ _ h
  have hkind := kind_eq (.named n value hname) hf h
  cases hf with
  | any m u hname' =>
    rw [toList_named, toList_any] at h
    obtain ⟨-, hrs⟩ := label_inj hname hname' (stops_cons.2 rfl) (stops_cons.2 rfl) (List.cons.inj h).2
    exact absurd (List.cons.inj hrs).1 (by decide)
  | named m w hname' =>
    rw [toList_named, toList_named] at h
    obtain ⟨rfl, hvalue⟩ :=
      label_inj hname hname' (stops_cons.2 rfl) (stops_cons.2 rfl) (List.cons.inj h).2
    obtain ⟨hvw, hrs⟩ := value_inj (stops_cons.2 rfl) (stops_cons.2 rfl) (List.cons.inj hvalue).2
    exact ⟨congrArg (lit 0 · (some name)) hvw, (List.cons.inj hrs).2⟩
  | _ => cases hkind

theorem cast_readable {e : Expr} {ty : Ty} (he : e.Printable) (ih : e.Readable) : (cast n ty e).Readable := by
  intro f r s hf _ _ h
  have hkind := kind_eq (.cast n ty he) hf h
  cases hf with
  | @cast f m u hf =>
    rw [toList_cast, toList_cast] at h
    obtain ⟨rfl, htext⟩ := Ty.name_inj (List.cons.inj (List.cons.inj h).2).2
    obtain ⟨hef, hrs⟩ := ih f _ _ hf (stops_cons.2 rfl) (stops_cons.2 rfl) (List.cons.inj htext).2
    exact ⟨congrArg (cast 0 ty) hef, (List.cons.inj (List.cons.inj hrs).2).2⟩
  | _ => cases hkind

theorem not_readable {e : Expr} (he : e.Printable) (ih : e.Readable) : (unary n .not e).Readable := by
  intro f r s hf _ _ h
  have hkind := kind_eq (.not n he) hf h
  cases hf with
  | @not f m hf =>
    rw [toList_not, toList_not] at h
    obtain ⟨hef, hrs⟩ :=
      ih f _ _ hf (stops_cons.2 rfl) (stops_cons.2 rfl) (List.cons.inj (List.cons.inj h).2).2
    exact ⟨congrArg (unary 0 .not) hef, (List.cons.inj hrs).2⟩
  | _ => cases hkind

theorem exists_two_operands {es : List Expr} (h : 2 ≤ es.length) : ∃ e e' es', es = e :: e' :: es' := by
  match es, h with
  | e :: e' :: es', _ => exact ⟨e, e', es', rfl⟩

theorem ite_readable {c y z : Expr} (hc : c.Printable) (hy : y.Printable) (hz : z.Printable)
    (ihc : c.Readable) (ihy : y.Readable) (ihz : z.Readable) : (ite n c y z).Readable := by
  intro f r s hf _ _ h
  have hkind := kind_eq (.ite n hc hy hz) hf h
  cases hf with
  | @ite c' y' z' m hc' hy' hz' =>
    rw [toList_ite, toList_ite] at h
    obtain ⟨hcc, h⟩ := ihc c' _ _ hc' (stops_cons.2 rfl) (stops_cons.2 rfl) (List.cons.inj h).2
    obtain ⟨hyy, h⟩ := ihy y' _ _ hy' (stops_cons.2 rfl) (stops_cons.2 rfl) (List.cons.inj h).2
    obtain ⟨hzz, h⟩ := ihz z' _ _ hz' (stops_cons.2 rfl) (stops_cons.2 rfl) (List.cons.inj h).2
    exact ⟨by rw [untyped, untyped, hcc, hyy, hzz], (List.cons.inj h).2⟩
  | @nary op es m ty hop hlen hes =>
    obtain ⟨e, e', es, rfl⟩ := exists_two_operands hlen
    rw [toList_ite, toList_nary] at h
    obtain ⟨-, h⟩ :=
      ihc e _ _ (hes e (by simp)) (stops_cons.2 rfl) (stops_moreOperands op _ s) (List.cons.inj h).2
    exact absurd h (moreOperands_ne (.inr rfl) op e' es _ _)
  | _ => cases hkind

theorem nary_readable {op : Operator} {ty : Ty} {es : List Expr} (hop : op.isUnary = false)
    (hlen : 2 ≤ es.length) (hes : ∀ e ∈ es, e.Printable) (ih : ∀ e ∈ es, e.Readable) :
    (nary n op ty es).Readable := by
  intro f r s hf _ _ h
  have hkind := kind_eq (.nary n ty hop hlen hes) hf h
  obtain ⟨e, e', es, rfl⟩ := exists_two_operands hlen
  cases hf with
  | @ite c' y' z' m hc' hy' hz' =>
    rw [toList_nary, toList_ite] at h
    obtain ⟨-, h⟩ :=
      ih e (by simp) c' _ _ hc' (stops_moreOperands op _ r) (stops_cons.2 rfl) (List.cons.inj h).2
    exact absurd h.symm (moreOperands_ne (.inr rfl) op e' es _ _)
  | @nary op' fs m u hop' hlen' hfs =>
    obtain ⟨f, f', fs, rfl⟩ := exists_two_operands hlen'
    rw [toList_nary, toList_nary] at h
    rw [List.forall_mem_cons] at ih hfs
    obtain ⟨hef, h⟩ :=
      ih.1 f _ _ hfs.1 (stops_moreOperands op _ r) (stops_moreOperands op' _ s) (List.cons.inj h).2
    obtain ⟨hmap, hopop, hrs⟩ := moreOperands_inj ih.2 hfs.2 h
    obtain rfl := hopop (by simp)
    refine ⟨?_, hrs⟩
    rw [untyped, untyped, untypedAll_eq_map, untypedAll_eq_map]
    exact congrArg (nary 0 op .int) (List.cons_eq_cons.2 ⟨hef, hmap⟩)
  | _ => cases hkind

end

theorem Printable.readable {e : Expr} (h : e.Printable) : e.Readable := by
  induction h with
  | any n ty hname => exact any_readable hname
  | number n value => exact number_readable value
  | named n value hname => exact named_readable value hname
  | cast n ty he ih => exact cast_readable he ih
  | not n he ih => exact not_readable he ih
  | ite n hc hy hz ihc ihy ihz => exact ite_readable hc hy hz ihc ihy ihz
  | nary n ty hop hlen hes ih => exact nary_readable hop hlen hes ih

/-! ### Types that are not written -/

mutual
theorem text_untyped (e : Expr) : e.untyped.text = e.text := by
  match e with
  | .any _ _ _ => rfl
  | .lit _ value none => rw [untyped, text, text, Scalar.text_convert_int]
  | .lit _ value (some name) => rw [untyped, text, text, Scalar.text_convert_int]
  | .cast _ _ e => rw [untyped, text, text, text_untyped e]
  | .unary _ _ e => rw [untyped, text, text, text_untyped e]
  | .ite _ c y z => rw [untyped, text, text, text_untyped c, text_untyped y, text_untyped z]
  | .nary _ op _ es => rw [untyped, text, text, textOperands_untypedAll op.symbol es]
theorem textOperands_untypedAll (symbol : String) (es : List Expr) :
    textOperands symbol (untypedAll es) = textOperands symbol es := by
  match es with
  | [] => rfl
  | [e] => rw [untypedAll, untypedAll, textOperands, textOperands, text_untyped e]
  | e :: f :: es =>
    have ih := textOperands_untypedAll symbol (f :: es)
    rw [untypedAll] at ih ⊢
    rw [untypedAll, textOperands_cons_cons, textOperands_cons_cons, text_untyped e, ih]
end

/-- **The infix form is unambiguous**: expressions have one form exactly when they are equal up to the types
that it does not show. -/
theorem text_eq_iff_untyped_eq {e f : Expr} (he : e.Printable) (hf : f.Printable) :
    e.text = f.text ↔ e.untyped = f.untyped := by
  constructor
  · intro h
    exact (he.readable f [] [] hf (stops_nil _) (stops_nil _) (by rw [h])).1
  · intro h
    rw [← text_untyped e, h, text_untyped]

/-- A choice by whether a variable of a type is less than a scalar, between a sum and a negated name. -/
def choice (ty : Ty) (bound : Scalar) (summands : List Expr) : Expr :=
  .ite 0 (.nary 0 .lt ty [.any 0 "x" ty, .lit 0 bound none]) (.nary 0 .add .int summands)
    (.unary 0 .not (.lit 0 (.bool true) (some "on")))

theorem choice_printable (ty : Ty) (bound : Scalar) {summands : List Expr} (hlen : 2 ≤ summands.length)
    (hsummands : ∀ e ∈ summands, e.Printable) : (choice ty bound summands).Printable := by
  have hoperands : ∀ e ∈ [any 0 "x" ty, lit 0 bound none], e.Printable := by
    rw [List.forall_mem_cons, List.forall_mem_singleton]
    exact ⟨.any 0 ty (by decide), .number 0 bound⟩
  exact .ite 0 (.nary 0 ty rfl (Nat.le_refl 2) hoperands) (.nary 0 .int rfl hlen hsummands)
    (.not 0 (.named 0 _ (by decide)))

def widened : Expr := .cast 0 .int (.any 0 "x" .char)

def numbers : List Expr := [.lit 0 (.int 1) none, .lit 0 (.int 2) none]

theorem widened_printable : widened.Printable := .cast 0 .int (.any 0 .char (by decide))

theorem numbers_printable : ∀ e ∈ numbers, e.Printable := by
  rw [numbers, List.forall_mem_cons, List.forall_mem_singleton]
  exact ⟨.number 0 _, .number 0 _⟩

/-- `(([x]<-1)?(((int)([x]))+1+2):(![on:1]))` is written whatever the type of the comparison, and not when
the numbers are in a group of their own. -/
theorem choice_text_eq_iff :
    (choice .char (.char (-1)) (widened :: numbers)).text =
        (choice .int (.int (-1)) (widened :: numbers)).text ∧
      (choice .char (.char (-1)) (widened :: numbers)).text ≠
        (choice .char (.char (-1)) [widened, .nary 0 .add .int numbers]).text := by
  have hflat (ty : Ty) (bound : Scalar) : (choice ty bound (widened :: numbers)).Printable :=
    choice_printable ty bound (by decide) (List.forall_mem_cons.2 ⟨widened_printable, numbers_printable⟩)
  have hgroup : (choice .char (.char (-1)) [widened, .nary 0 .add .int numbers]).Printable := by
    refine choice_printable .char _ (by decide) ?_
    rw [List.forall_mem_cons, List.forall_mem_singleton]
    exact ⟨widened_printable, .nary 0 .int rfl (by decide) numbers_printable⟩
  rw [Ne, text_eq_iff_untyped_eq (hflat _ _) (hflat _ _), text_eq_iff_untyped_eq (hflat _ _) hgroup]
  refine ⟨rfl, ?_⟩
  simp [choice, numbers, untyped, untypedAll]

end Expr

end Symex

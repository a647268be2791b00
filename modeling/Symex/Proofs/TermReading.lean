import Symex.Proofs.Support
import Symex.Proofs.WrittenText

/-!
Terms can be read back. From the S-expression of a term, `ofSExpr` finds the term again, but for the sorts
of constants and applications, which are not written. This asks that a name is not one of the words that
terms are written with, and that no conjunction, disjunction, sum or `distinct` is written as the constant
it equals. If names have no bars either, the text of a term determines its S-expression.
-/

namespace Symex.Smt

/-! ### Names and numbers -/

/-- The name that a token stands for. -/
def tokenName (token : String) : String :=
  match token.toList with
  | '|' :: cs => String.ofList cs.dropLast
  | _ => token

theorem tokenName_symbol (name : String) : tokenName (symbol name) = name := by
  rcases symbol_cases name with ⟨hsymbol, c, cs, hcs, hc, -⟩ | ⟨-, hquoted⟩
  · rw [hsymbol, tokenName, hcs]
    split
    · next heq =>
      rw [(List.cons.inj heq).1] at hc
      exact absurd hc (by decide)
    · rfl
  · simp [tokenName, hquoted]

/-- Whether a token is a number. -/
def isNumeral (token : String) : Bool := token.toList.head?.any Char.isDigit

theorem isNumeral_toString (n : Nat) : isNumeral (toString n) = true := by
  obtain ⟨c, cs, hcs, hc⟩ := exists_toList_toString n
  rw [isNumeral, hcs]
  exact hc

theorem isNumeral_symbol (name : String) : isNumeral (symbol name) = false := by
  rcases symbol_cases name with ⟨hsymbol, c, cs, hcs, hc, -⟩ | ⟨-, hquoted⟩
  · rw [hsymbol, isNumeral, hcs]
    exact not_isDigit_of_start hc
  · rw [isNumeral, hquoted]
    rfl

/-! ### Sorts -/

/-- Reads a sort. -/
def TermSort.ofSExpr : SExpr → Option TermSort
  | .atom s => if s = "Bool" then some .bool else if s = "Int" then some .int else none
  | .list [.atom "Array", i, e] => do return .array (← ofSExpr i) (← ofSExpr e)
  | .list [.atom "_", .atom "BitVec", .atom w] => do return .bitVec (← w.toNat?)
  | .list _ => none

theorem TermSort.ofSExpr_sexpr (s : TermSort) : ofSExpr s.sexpr = some s := by
  induction s with
  | bool => rfl
  | int => rfl
  | bitVec w => simp [sexpr, ofSExpr]
  | array i e hi he => simp [sexpr, ofSExpr, hi, he]

theorem TermSort.sexpr_tokenized (s : TermSort) : s.sexpr.Tokenized := by
  induction s with
  | bool => exact .word (by decide)
  | int => exact .word (by decide)
  | bitVec w => exact .triple (.word (by decide)) (.word (by decide)) (.numeral w)
  | array i e hi he => exact .triple (.word (by decide)) hi he

namespace Term

/-! ### Terms -/

/-- The words that terms are written with. -/
def words : List String :=
  ["true", "false", "not", "and", "or", "=>", "=", "distinct", "ite", "<", ">", "+", "-", "bvadd",
    "bvnot", "bvslt", "select", "store", "_", "as"]

/-- The number in the token of a bit-vector literal. -/
def literalNumber (token : String) : Option Nat := (String.ofList (token.toList.drop 2)).toNat?

/-- What a word makes of terms. -/
def ofWord : String → List Term → Option Term
  | "-", [.int i] => some (.int (-i))
  | "_", [.const v _, .int w] => do return .bitVec (.ofNat 64 (← literalNumber v)) w.toNat
  | "not", [t] => some (.not t)
  | "and", ts => some (.and ts)
  | "or", ts => some (.or ts)
  | "=>", [a, b] => some (.implies a b)
  | "=", [a, b] => some (.eq a b)
  | "distinct", ts => some (.distinct ts)
  | "ite", [c, t, e] => some (.ite c t e)
  | "<", [a, b] => some (.lt a b)
  | ">", [a, b] => some (.gt a b)
  | "+", ts => some (.add ts)
  | "bvadd", [a, b] => some (.bvAdd a b)
  | "bvnot", [t] => some (.bvNot t)
  | "bvslt", [a, b] => some (.bvSlt a b)
  | "select", [a, i] => some (.select a i)
  | "store", [a, i, v] => some (.store a i v)
  | _, _ => none

/-- What the head of a list makes of the terms after it. -/
def ofHead : SExpr → List Term → Option Term
  | .atom w, ts => if w ∈ words then ofWord w ts else some (.apply (tokenName w) ts .bool)
  | .list [.atom "_", .atom "sign_extend", .atom n], [t] => do return .signExtend (← n.toNat?) t
  | .list [.atom "as", .atom "const", s], [t] => do return .constArray (← TermSort.ofSExpr s) t
  | .list _, _ => none

/-- Reads a term that is one token. -/
def ofToken (token : String) : Option Term :=
  if token = "true" then some (.bool true)
  else if token = "false" then some (.bool false)
  else if isNumeral token then do return .int (← token.toNat?)
  else some (.const (tokenName token) .bool)

mutual
/-- Reads a term. Constants and applications get a sort of their own, since none is written. -/
def ofSExpr : SExpr → Option Term
  | .atom token => ofToken token
  | .list [] => none
  | .list (head :: xs) => do ofHead head (← ofSExprs xs)
def ofSExprs : List SExpr → Option (List Term)
  | [] => some []
  | x :: xs => do return (← ofSExpr x) :: (← ofSExprs xs)
end

mutual
/-- A term without the sorts of constants and applications. -/
def unsorted : Term → Term
  | .bool b => .bool b
  | .int i => .int i
  | .bitVec v w => .bitVec v w
  | .const name _ => .const name .bool
  | .apply func args _ => .apply func (unsortedAll args) .bool
  | .not t => .not t.unsorted
  | .and ts => .and (unsortedAll ts)
  | .or ts => .or (unsortedAll ts)
  | .implies a b => .implies a.unsorted b.unsorted
  | .eq a b => .eq a.unsorted b.unsorted
  | .distinct ts => .distinct (unsortedAll ts)
  | .ite c t e => .ite c.unsorted t.unsorted e.unsorted
  | .lt a b => .lt a.unsorted b.unsorted
  | .gt a b => .gt a.unsorted b.unsorted
  | .add ts => .add (unsortedAll ts)
  | .bvAdd a b => .bvAdd a.unsorted b.unsorted
  | .bvNot t => .bvNot t.unsorted
  | .bvSlt a b => .bvSlt a.unsorted b.unsorted
  | .signExtend bits t => .signExtend bits t.unsorted
  | .select a i => .select a.unsorted i.unsorted
  | .store a i v => .store a.unsorted i.unsorted v.unsorted
  | .constArray s v => .constArray s v.unsorted
def unsortedAll : List Term → List Term
  | [] => []
  | t :: ts => t.unsorted :: unsortedAll ts
end

theorem unsortedAll_eq_map (ts : List Term) : unsortedAll ts = ts.map unsorted := by
  induction ts with
  | nil => rfl
  | cons t ts ih => rw [unsortedAll, ih, List.map_cons]

/-- A name that no word of terms can be taken for, and that fits between bars. -/
def NameApart (name : String) : Prop := name ∉ words ∧ '|' ∉ name.toList

/-- A term that is not written as another one, whatever its operands are. -/
def WrittenApart : Term → Prop
  | .const name _ | .apply name _ _ => NameApart name
  | .and ts | .or ts | .add ts => ts ≠ []
  | .distinct ts => 2 ≤ ts.length
  | _ => True

/-- All terms in a term are written apart. -/
def Readable (t : Term) : Prop := ∀ u, Occurs u t → u.WrittenApart

theorem readable_iff {t : Term} : t.Readable ↔ t.WrittenApart ∧ ∀ v ∈ t.operands, v.Readable :=
  forall_occurs_iff

/-! ### Reading back -/

theorem symbol_not_mem_words {name : String} (h : name ∉ words) : symbol name ∉ words := by
  rcases symbol_cases name with ⟨hsymbol, -⟩ | ⟨-, hquoted⟩
  · rwa [hsymbol]
  · intro hmem
    have hbar : ∀ w ∈ words, w.toList.head? ≠ some '|' := by decide
    exact hbar _ hmem (by rw [hquoted]; rfl)

theorem ofToken_toString (n : Nat) : ofToken (toString n) = some (.int n) := by
  have hne : ∀ w, isNumeral w = false → toString n ≠ w := by
    rintro w hw rfl
    rw [isNumeral_toString] at hw
    cases hw
  rw [ofToken, if_neg (hne _ (by decide)), if_neg (hne _ (by decide)), if_pos (isNumeral_toString n)]
  simp

theorem ofToken_symbol {name : String} (h : name ∉ words) :
    ofToken (symbol name) = some (.const name .bool) := by
  have hne : ∀ w ∈ words, symbol name ≠ w := by
    rintro w hw rfl
    exact symbol_not_mem_words h hw
  rw [ofToken, if_neg (hne _ (by decide)), if_neg (hne _ (by decide)),
    if_neg (ne_true_of_eq_false (isNumeral_symbol name)), tokenName_symbol]

theorem ofSExpr_int (i : Int) : ofSExpr (sexpr (.int i)) = some (.int i) := by
  rw [sexpr]
  split
  · next hneg =>
    have habs : -(i.natAbs : Int) = i := by omega
    rw [ofSExpr, ofSExprs, ofSExpr, ofToken_toString, ofSExprs]
    exact congrArg (fun j => some (Term.int j)) habs
  · next hpos =>
    have habs : (i.natAbs : Int) = i := by omega
    rw [ofSExpr, ofToken_toString, habs]

theorem toList_bv (n : Nat) : ("bv" ++ toString n).toList = 'b' :: 'v' :: (toString n).toList :=
  String.toList_append

theorem literalNumber_bv (n : Nat) : literalNumber ("bv" ++ toString n) = some n := by
  rw [literalNumber, toList_bv]
  exact (congrArg String.toNat? String.ofList_toList).trans (Nat.toNat?_repr n)

theorem ofToken_bv (n : Nat) : ofToken ("bv" ++ toString n) = some (.const ("bv" ++ toString n) .bool) := by
  have hne : ∀ w : String, w.toList.head? ≠ some 'b' → "bv" ++ toString n ≠ w := by
    rintro w hw rfl
    exact hw (by rw [toList_bv]; rfl)
  have hnumeral : isNumeral ("bv" ++ toString n) = false := by
    rw [isNumeral, toList_bv]
    rfl
  have hname : tokenName ("bv" ++ toString n) = "bv" ++ toString n := by
    rw [tokenName, toList_bv]
    rfl
  rw [ofToken, if_neg (hne _ (by decide)), if_neg (hne _ (by decide)), if_neg (ne_true_of_eq_false hnumeral),
    hname]

theorem ofSExpr_bitVec (v : Word) (w : Nat) : ofSExpr (sexpr (.bitVec v w)) = some (.bitVec v w) := by
  rw [sexpr, ofSExpr, ofSExprs, ofSExpr, ofToken_bv, ofSExprs, ofSExpr, ofToken_toString, ofSExprs]
  show (literalNumber ("bv" ++ toString v.toNat) >>= fun n => some (Term.bitVec (.ofNat 64 n) w)) = _
  rw [literalNumber_bv]
  exact congrArg (fun x => some (Term.bitVec x w)) ((BitVec.ofNat_toNat 64 v).trans (BitVec.setWidth_eq v))

theorem ofSExprs_sexprs {ts : List Term} (h : ∀ t ∈ ts, ofSExpr t.sexpr = some t.unsorted) :
    ofSExprs (sexprs ts) = some (unsortedAll ts) := by
  induction ts with
  | nil => rfl
  | cons t ts ih =>
    rw [List.forall_mem_cons] at h
    rw [sexprs, ofSExprs, h.1, ih h.2]
    rfl

/-- A list is what its head makes of the operands. -/
theorem ofSExpr_list {head : SExpr} {ts : List Term} (h : ∀ t ∈ ts, ofSExpr t.sexpr = some t.unsorted) :
    ofSExpr (.list (head :: sexprs ts)) = ofHead head (unsortedAll ts) := by
  rw [ofSExpr, ofSExprs_sexprs h]
  rfl

/-- **A term is read back from its S-expression.** -/
theorem ofSExpr_sexpr {t : Term} (ht : t.Readable) : ofSExpr t.sexpr = some t.unsorted := by
  revert ht
  refine of_operands (P := fun t => t.Readable → ofSExpr t.sexpr = some t.unsorted) ?_ t
  intro t ih ht
  obtain ⟨hself, hops⟩ := readable_iff.1 ht
  have hread : ∀ head, ofSExpr (.list (head :: sexprs t.operands)) = ofHead head (unsortedAll t.operands) :=
    fun head => ofSExpr_list fun v hv => ih v hv (hops v hv)
  match t with
  | .bool b => cases b <;> rfl
  | .int i => exact ofSExpr_int i
  | .bitVec v w => exact ofSExpr_bitVec v w
  | .const name s => exact ofToken_symbol hself.1
  | .apply f ts s =>
    refine (hread (.atom (symbol f))).trans ?_
    rw [ofHead, if_neg (symbol_not_mem_words hself.1), tokenName_symbol]
    rfl
  | .not a => exact hread (.atom "not")
  | .and ts =>
    rw [sexpr, if_neg (mt List.isEmpty_iff.1 hself)]
    exact hread (.atom "and")
  | .or ts =>
    rw [sexpr, if_neg (mt List.isEmpty_iff.1 hself)]
    exact hread (.atom "or")
  | .implies a b => exact hread (.atom "=>")
  | .eq a b => exact hread (.atom "=")
  | .distinct ts =>
    rw [sexpr, if_neg (Nat.not_lt.2 hself)]
    exact hread (.atom "distinct")
  | .ite c a b => exact hread (.atom "ite")
  | .lt a b => exact hread (.atom "<")
  | .gt a b => exact hread (.atom ">")
  | .add ts =>
    rw [sexpr, if_neg (mt List.isEmpty_iff.1 hself)]
    exact hread (.atom "+")
  | .bvAdd a b => exact hread (.atom "bvadd")
  | .bvNot a => exact hread (.atom "bvnot")
  | .bvSlt a b => exact hread (.atom "bvslt")
  | .signExtend bits a =>
    refine (hread _).trans ?_
    simp [ofHead, unsorted, operands, unsortedAll]
  | .select a i => exact hread (.atom "select")
  | .store a i v => exact hread (.atom "store")
  | .constArray s v =>
    refine (hread _).trans ?_
    simp [ofHead, unsorted, operands, unsortedAll, TermSort.ofSExpr_sexpr]

/-! ### Tokens -/

theorem bv_tokenized (n : Nat) : (SExpr.atom ("bv" ++ toString n)).Tokenized := by
  refine .word ⟨by rw [toList_bv]; simp, ?_⟩
  rw [toList_bv, List.all_eq_true, List.forall_mem_cons, List.forall_mem_cons]
  exact ⟨by decide, by decide, fun c hc => isWordChar_of_mem_toString hc⟩

/-- All atoms of a term are tokens. -/
theorem sexpr_tokenized {t : Term} (ht : t.Readable) : t.sexpr.Tokenized := by
  revert ht
  refine of_operands (P := fun t => t.Readable → t.sexpr.Tokenized) ?_ t
  intro t ih ht
  obtain ⟨hself, hops⟩ := readable_iff.1 ht
  have hlist : ∀ {head : SExpr}, head.Tokenized → (SExpr.list (head :: sexprs t.operands)).Tokenized := by
    intro head hhead
    rw [sexprs_eq_map]
    refine .list (List.forall_mem_cons.2 ⟨hhead, List.forall_mem_map.2 fun v hv => ih v hv (hops v hv)⟩)
  match t with
  | .bool b => cases b <;> exact .word (by decide)
  | .int i =>
    rw [sexpr]
    split
    · refine .list (List.forall_mem_cons.2 ⟨.word (by decide), ?_⟩)
      exact List.forall_mem_singleton.2 (.numeral i.natAbs)
    · exact .numeral i.natAbs
  | .bitVec v w => exact .triple (.word (by decide)) (bv_tokenized v.toNat) (.numeral w)
  | .const name s => exact .symbol hself.2
  | .apply f ts s => exact hlist (.symbol hself.2)
  | .and ts | .or ts | .add ts =>
    rw [sexpr, if_neg (mt List.isEmpty_iff.1 hself)]
    exact hlist (.word (by decide))
  | .distinct ts =>
    rw [sexpr, if_neg (Nat.not_lt.2 hself)]
    exact hlist (.word (by decide))
  | .not _ | .implies _ _ | .eq _ _ | .ite _ _ _ | .lt _ _ | .gt _ _ | .bvAdd _ _ | .bvNot _ | .bvSlt _ _
  | .select _ _ | .store _ _ _ => exact hlist (.word (by decide))
  | .signExtend bits a => exact hlist (.triple (.word (by decide)) (.word (by decide)) (.numeral bits))
  | .constArray s v => exact hlist (.triple (.word (by decide)) (.word (by decide)) s.sexpr_tokenized)

/-! ### Terms from texts -/

/-- The sorts of constants and applications are not written. -/
theorem sexpr_unsorted (t : Term) : t.unsorted.sexpr = t.sexpr := by
  refine of_operands (P := fun t => t.unsorted.sexpr = t.sexpr) ?_ t
  intro t ih
  have hops : t.operands.map (sexpr ∘ unsorted) = t.operands.map sexpr := List.map_congr_left ih
  match t with
  | .bool _ | .int _ | .bitVec _ _ | .const _ _ => rfl
  | .apply _ ts _ | .and ts | .or ts | .distinct ts | .add ts =>
    rw [operands] at hops
    simp [unsorted, sexpr, unsortedAll_eq_map, sexprs_eq_map, hops]
  | .not _ | .bvNot _ | .signExtend _ _ | .constArray _ _ | .implies _ _ | .eq _ _ | .lt _ _ | .gt _ _
  | .bvAdd _ _ | .bvSlt _ _ | .select _ _ | .ite _ _ _ | .store _ _ _ =>
    simp_all [unsorted, sexpr, operands]

/-- **Terms with the same text differ at most in the sorts of constants and applications.** -/
theorem text_eq_iff_unsorted_eq {t u : Term} (ht : t.Readable) (hu : u.Readable) :
    t.text = u.text ↔ t.unsorted = u.unsorted := by
  constructor
  · intro h
    have hsexpr : t.sexpr = u.sexpr := (sexpr_tokenized ht).text_inj (sexpr_tokenized hu) h
    have hread : some t.unsorted = some u.unsorted := by
      rw [← ofSExpr_sexpr ht, ← ofSExpr_sexpr hu, hsexpr]
    exact Option.some.inj hread
  · intro h
    rw [text, text, ← sexpr_unsorted t, ← sexpr_unsorted u, h]

/-- A call, or a constant whose name looks like one, is equal to a negative number. -/
def callEquals (called : Bool) (s : TermSort) : Term :=
  .eq (if called then .apply "f" [.int (-3)] s else .const "(f (- 3))" s) (.int (-3))

theorem callEquals_readable (called : Bool) (s : TermSort) : (callEquals called s).Readable := by
  have hname : NameApart "f" ∧ NameApart "(f (- 3))" := by
    unfold NameApart
    decide
  have hint : ∀ i : Int, (int i).Readable := fun i => readable_iff.2 ⟨trivial, by simp [operands]⟩
  have hconst : (const "(f (- 3))" s).Readable := readable_iff.2 ⟨hname.2, by simp [operands]⟩
  have hcall : (apply "f" [.int (-3)] s).Readable := readable_iff.2 ⟨hname.1, by simp [operands, hint]⟩
  cases called with
  | true => exact readable_iff.2 ⟨trivial, by simp [callEquals, operands, hcall, hint]⟩
  | false => exact readable_iff.2 ⟨trivial, by simp [callEquals, operands, hconst, hint]⟩

/-- A constant is not read as the call that its name looks like, and a call is read whatever its sort
is. -/
theorem callEquals_read_apart :
    (callEquals true .int).Readable ∧ (callEquals false .int).Readable ∧ (callEquals true .bool).Readable ∧
      (callEquals true .int).text ≠ (callEquals false .int).text ∧
      (callEquals true .int).text = (callEquals true .bool).text := by
  have hcall := callEquals_readable true .int
  have hconst := callEquals_readable false .int
  have hcall' := callEquals_readable true .bool
  refine ⟨hcall, hconst, hcall', ?_, (text_eq_iff_unsorted_eq hcall hcall').2 rfl⟩
  intro h
  have hunsorted := (text_eq_iff_unsorted_eq hcall hconst).1 h
  cases hunsorted

end Term

end Symex.Smt

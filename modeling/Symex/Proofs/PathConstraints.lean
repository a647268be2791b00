import Mathlib.Data.List.Forall2
import Symex.Proofs.Agreement
import Symex.Proofs.Typing

/-!
Path constraints describe the inputs that take the same path. A condition built from literals and free
variables denotes its data while all free variables are zero, and its companion is an expression whose
nodes fit. Hence an environment satisfies the noted constraints just in case every symbolic condition
comes out as it did, and over `bool` and `int` the asserted terms say the same.
-/

namespace Symex

open Smt (Term Model Script)

/-! ### Conditions -/

/-- The companion has the type of the data, and its nodes fit. -/
def Dual.Fits (d : Dual) : Prop := ∀ e, d.companion = some e → e.ty = d.data.ty ∧ e.fitted = true

/-- All free variables have the data they start with. -/
def Env.zeros : Env where
  value _ ty := .zero ty
  ty_value _ ty := Scalar.ty_zero ty

namespace Tracked

variable {v l r : Tracked}

/-- Values built by operators and casts from literals and free variables. Who holds which companion
alone and which stamp is next are left open at every step. -/
inductive Built : Tracked → Prop
  | new (s : Scalar) : Built (Tracked.new s)
  /-- A literal known by a name. -/
  | named (s : Scalar) (name : String) (n : Nat) : Built ((Tracked.new s).symbolize name n).1
  | any (name : String) (ty : Ty) (n : Nat) : Built (Tracked.any name ty n).1
  | cast {v : Tracked} (hv : Built v) (ty : Ty) (n : Nat) : Built (v.cast ty n).1
  | not {v : Tracked} (hv : Built v) (hty : v.ty = .bool) (n : Nat) : Built (v.not n).1
  | add {l r : Tracked} (hl : Built l) (hr : Built r) (own : Ownership) (n : Nat) :
    Built (l.add r own n).1
  | lt {l r : Tracked} (hl : Built l) (hr : Built r) (own : Ownership) (n : Nat) :
    Built (l.lt r own n).1
  | equals {l r : Tracked} (hl : Built l) (hr : Built r) (own : Ownership) (n : Nat) :
    Built (l.equals r own n).1
  | and {l r : Tracked} (hl : Built l) (hr : Built r) (hlt : l.ty = .bool) (hrt : r.ty = .bool)
    (own : Ownership) (n : Nat) : Built (l.and r own n).1
  | or {l r : Tracked} (hl : Built l) (hr : Built r) (hlt : l.ty = .bool) (hrt : r.ty = .bool)
    (own : Ownership) (n : Nat) : Built (l.or r own n).1

/-- The companion fits the data, and denotes them while all free variables are zero. -/
structure Sound (v : Tracked) : Prop where
  fits : v.toDual.Fits
  agrees : v.toSlot.Agrees (.under .zeros)

theorem Built.wellTyped (h : v.Built) : v.toDual.WellTyped := by
  induction h with
  | new s => exact new_wellTyped s
  | named s name n => exact symbolize_wellTyped _ name n
  | any name ty n => exact any_wellTyped name ty n
  | cast hv ty n ih => exact (cast_wellTyped ih ty n).2
  | not hv hty n ih => exact not_wellTyped ih hty n
  | add hl hr own n ihl ihr => exact add_wellTyped ihl ihr own n
  | lt hl hr own n ihl ihr => exact lt_wellTyped ihl ihr own n
  | equals hl hr own n ihl ihr => exact equals_wellTyped ihl ihr own n
  | and hl hr hlt hrt own n ihl ihr => exact and_wellTyped ihl ihr own n
  | or hl hr hlt hrt own n ihl ihr => exact or_wellTyped ihl ihr own n

theorem Built.agrees (h : v.Built) : v.toSlot.Agrees (.under .zeros) := by
  induction h with
  | new s => exact new_agrees s
  | named s name n => exact symbolize_agrees (fun h => nomatch (show true = false from h)) n
  | any name ty n => exact any_agrees (fun env henv => by rw [henv]; rfl) n
  | cast hv ty n ih => exact (cast_agrees ih ty n).2
  | not hv hty n ih => exact not_agrees ih n
  | add hl hr own n ihl ihr => exact add_agrees ihl ihr own n
  | lt hl hr own n ihl ihr => exact lt_agrees ihl ihr own n
  | equals hl hr own n ihl ihr => exact equals_agrees ihl ihr own n
  | and hl hr hlt hrt own n ihl ihr => exact and_agrees ihl ihr own n
  | or hl hr hlt hrt own n ihl ihr => exact or_agrees ihl ihr own n

/-- **Every value built is sound**, by its construction. -/
theorem Built.sound (h : v.Built) : v.Sound where
  fits e he := ⟨(h.wellTyped e he).ty_eq, (h.wellTyped e he).fitted⟩
  agrees := h.agrees

end Tracked

/-! ### Branches -/

namespace Path

/-- Branches on conditions one after another, each at a stamp of its own. -/
def branchAll (p : Path) : List (Tracked × Nat) → List Bool × Path
  | [] => ([], p)
  | (cond, n) :: rest =>
    let (taken, p) := (p.branch cond n).1
    let (outcomes, p) := p.branchAll rest
    (taken :: outcomes, p)

/-- All constraints are true. -/
def SatisfiedBy (p : Path) (env : Env) : Prop := ∀ e ∈ p.constraints, e.value env = .bool true

/-- The companion of a condition in the polarity of its data. -/
def polarised (c : Tracked × Nat) (e : Expr) : Expr := if c.1.isTrue then e else .unary c.2 .not e

/-- What a branch notes of its condition. -/
def noted (c : Tracked × Nat) : Option Expr := c.1.companion.map (polarised c)

theorem branch_eq {p : Path} (h : p.recording = true) (c : Tracked × Nat) :
    (p.branch c.1 c.2).1 =
      (c.1.isTrue, { p with constraints := p.constraints ++ (noted c).toList }) := by
  obtain ⟨recording, constraints⟩ := p
  obtain rfl : recording = true := h
  unfold branch noted polarised
  cases hc : c.1.companion with
  | none => exact Prod.ext rfl (by rw [Option.map_none, Option.toList_none, List.append_nil]; rfl)
  | some e =>
    cases ht : c.1.isTrue with
    | true => rfl
    | false => rfl

/-- A run of branches answers with the data, and notes one constraint for each symbolic condition. -/
theorem branchAll_eq {p : Path} (h : p.recording = true) (conds : List (Tracked × Nat)) :
    p.branchAll conds =
      (conds.map (·.1.isTrue), { p with constraints := p.constraints ++ conds.filterMap noted }) := by
  induction conds generalizing p with
  | nil => simp [branchAll]
  | cons c conds ih =>
    have hrest := ih (p := { p with constraints := p.constraints ++ (noted c).toList }) h
    rw [branchAll, branch_eq h c]
    show (c.1.isTrue :: (branchAll _ conds).1, (branchAll _ conds).2) = _
    rw [hrest]
    cases hc : noted c with
    | none => simp [hc]
    | some e => simp [hc]

theorem forall_mem_noted {P : Expr → Prop} {conds : List (Tracked × Nat)} :
    (∀ e ∈ conds.filterMap noted, P e) ↔
      ∀ c ∈ conds, ∀ e, c.1.companion = some e → P (polarised c e) := by
  constructor
  · intro h c hc e he
    exact h _ (List.mem_filterMap.2 ⟨c, hc, by rw [noted, he]; rfl⟩)
  · intro h e' he'
    obtain ⟨c, hc, hn⟩ := List.mem_filterMap.1 he'
    obtain ⟨e, he, rfl⟩ := Option.map_eq_some_iff.1 hn
    exact h c hc e he

section
variable {e : Expr}

theorem polarised_fits (hty : e.ty = .bool) (hfit : e.fitted = true) (c : Tracked × Nat) :
    (polarised c e).ty = .bool ∧ (polarised c e).fitted = true := by
  unfold polarised
  split
  · exact ⟨hty, hfit⟩
  · exact ⟨rfl, by simp [Expr.fitted, hty, hfit]⟩

theorem overSorts_polarised (c : Tracked × Nat) : (polarised c e).overSorts = e.overSorts := by
  unfold polarised
  split
  · rfl
  · rw [Expr.overSorts]

/-- A constraint is true where its condition comes out as its data did. -/
theorem value_polarised_iff (hty : e.ty = .bool) (hfit : e.fitted = true) (c : Tracked × Nat) (env : Env) :
    (polarised c e).value env = .bool true ↔ e.value env = .bool c.1.isTrue := by
  have hbool : e.value env = .bool (e.value env).isTrue :=
    Scalar.eq_bool_of_ty ((Expr.ty_value_of_fitted hfit env).trans hty)
  unfold polarised
  split
  · next ht => rw [ht]
  · next ht =>
    rw [Bool.not_eq_true] at ht
    rw [Expr.value, ht, hbool]
    simp

end

end Path

/-! ### Assertions -/

theorem Smt.Script.assertions_foldl_assert (ts : List Term) (s : Script) :
    (ts.foldl .assert s).assertions = s.assertions ++ ts := by
  induction ts generalizing s with
  | nil => simp
  | cons t ts ih => simp [ih, assert]

theorem FreeSorts.assertions_declareIn (free : FreeSorts) (s : Script) :
    (free.declareIn s).assertions = s.assertions := by
  unfold declareIn
  induction free generalizing s with
  | nil => rfl
  | cons v free ih => rw [List.foldl_cons, ih, Smt.Script.assertions_declare]

/-- Whether integers have a sum of 32 bits. Only where they are so many that a partial sum could leave
the range of 64 bits, the partial sums matter too. -/
def sumFits (is : List Int) : Bool :=
  (-2147483648 ≤ is.foldr (· + ·) 0 && is.foldr (· + ·) 0 ≤ 2147483647) &&
    (is.length < 4294967296 || sumStays 0 is)

/-- Partial sums of few words stay in the range of 64 bits. -/
theorem sumStays_of_length {is : List Int} {first : Int} {k : Nat}
    (hwords : ∀ i ∈ is, -2147483648 ≤ i ∧ i ≤ 2147483647) (hlo : -2147483648 * k ≤ first)
    (hhi : first ≤ 2147483648 * k) (hlen : k + is.length < 4294967296)
    (hsum : -2147483648 ≤ first + is.foldr (· + ·) 0 ∧ first + is.foldr (· + ·) 0 ≤ 2147483647) :
    sumStays first is = true := by
  induction is generalizing first k with
  | nil => simpa [sumStays] using hsum
  | cons i is ih =>
    obtain ⟨hi, his⟩ := List.forall_mem_cons.1 hwords
    rw [List.length_cons] at hlen
    rw [List.foldr_cons] at hsum
    have hrest : sumStays (first + i) is = true :=
      ih (k := k + 1) his (by omega) (by omega) (by omega) (by omega)
    have hwide : -9223372036854775808 ≤ first + i ∧ first + i ≤ 9223372036854775807 := by omega
    simp [sumStays, hwide, hrest]

theorem sumStays_of_sumFits {is : List Int} (hwords : ∀ i ∈ is, -2147483648 ≤ i ∧ i ≤ 2147483647)
    (h : sumFits is = true) : sumStays 0 is = true := by
  obtain ⟨hsum, hlen | hstays⟩ : (-2147483648 ≤ is.foldr (· + ·) 0 ∧ is.foldr (· + ·) 0 ≤ 2147483647) ∧
      (is.length < 4294967296 ∨ sumStays 0 is = true) := by simpa [sumFits] using h
  · exact sumStays_of_length (k := 0) hwords (by decide) (by decide) (by omega) (by simpa using hsum)
  · exact hstays

/-- A boolean term that has the value of an expression holds where the expression is true. -/
theorem Expr.Encodes.holds_iff {e : Expr} {t : Term} (h : e.Encodes t) (hwt : e.wellTyped = true)
    (hty : e.ty = .bool) {env : Env} {m : Model} (hm : m.Follows env e)
    (hfit : e.sumsPass sumFits env = true) : m.Holds t ↔ e.value env = .bool true := by
  have heval := h.eval_of_stay env m hm (sumsPass_mono (fun _ => sumStays_of_sumFits) e hfit)
  rw [Scalar.eq_bool_of_ty ((ty_value hwt env).trans hty)] at heval ⊢
  rw [Smt.Model.Holds, heval]
  simp [Smt.Value.ofNative]

namespace Path

theorem run_asserts (ts : List Term) (s : Script) :
    (ts.forM fun t => modify (·.assert t) : ExceptT Error (StateM Script) Unit).run.run s =
      (.ok (), ts.foldl .assert s) := by
  induction ts generalizing s with
  | nil => rfl
  | cons t ts ih => exact ih (s.assert t)

/-- Once every constraint is a term, the script gets the declarations and then the terms. -/
theorem encodeIn_of_ok {p : Path} {terms : List Term} {free : FreeSorts}
    (h : (Expr.encodeAll p.constraints).run.run [] = (.ok terms, free)) (s : Script) :
    p.encodeIn.run.run s = (.ok (), terms.foldl .assert (free.declareIn s)) := by
  unfold encodeIn
  rw [h]
  exact run_asserts terms _

/-- **A path that cannot be encoded adds nothing to a script**, also if some of its constraints could have
been encoded: no constraint is added before the last one is encoded. -/
theorem encodeIn_failed {p : Path} {s : Script} {e : Error} (h : (p.encodeIn.run.run s).1 = .error e) :
    (p.encodeIn.run.run s).2 = s := by
  generalize hrun : (Expr.encodeAll p.constraints).run.run [] = r
  obtain ⟨_ | terms, free⟩ := r
  · unfold encodeIn
    rw [hrun]
    rfl
  · rw [encodeIn_of_ok hrun] at h
    cases h

/-- Constraints over `bool` and `int` are asserted, and say in the script what they say natively. -/
theorem encodeIn_asserts {p : Path} (h : ∀ e ∈ p.constraints, e.wellTyped = true ∧ e.ty = .bool)
    (script : Script) :
    ∃ script' added, p.encodeIn.run.run script = (.ok (), script') ∧
      script'.assertions = script.assertions ++ added ∧
      ∀ env m, (∀ e ∈ p.constraints, Model.Follows m env e ∧ e.sumsPass sumFits env = true) →
        ((∀ t ∈ added, m.Holds t) ↔ p.SatisfiedBy env) := by
  obtain ⟨ps, hes, hps⟩ := exists_pairs fun e he => Expr.exists_encodes e (h e he).1
  have hterms := Expr.encodeAll_returns p.constraints []
  rw [← hes, Expr.termAll_eq_ok fun q hq => (hps q hq).term_eq] at hterms
  obtain ⟨free, hrun⟩ : ∃ free, (Expr.encodeAll p.constraints).run.run [] = (.ok (ps.map (·.2)), free) :=
    ⟨_, Prod.ext (hes ▸ hterms) rfl⟩
  refine ⟨(ps.map (·.2)).foldl .assert (free.declareIn script), ps.map (·.2), ?_, ?_, ?_⟩
  · exact encodeIn_of_ok hrun script
  · rw [Smt.Script.assertions_foldl_assert, FreeSorts.assertions_declareIn]
  · intro env m hm
    unfold SatisfiedBy
    rw [← hes] at h hm ⊢
    simp only [List.forall_mem_map] at h hm ⊢
    refine forall₂_congr fun q hq => ?_
    exact (hps q hq).holds_iff (h q hq).1 (h q hq).2 (hm q hq).1 (hm q hq).2

/-- If no name stands for variables of two types, every environment has a model. -/
theorem exists_follows {p : Path} (h : ∀ v ∈ Expr.occurrencesAll p.constraints,
    ∀ w ∈ Expr.occurrencesAll p.constraints, v.1 = w.1 → v.2 = w.2) (env : Env) :
    ∃ m, ∀ e ∈ p.constraints, Model.Follows m env e := by
  -- the conjunction of the constraints has the same free variables
  refine ⟨(Expr.nary 0 .and .bool p.constraints).modelOf env, fun e he v hv => ?_⟩
  refine Expr.follows_modelOf (e := .nary 0 .and .bool p.constraints) h env v ?_
  rw [Expr.occurrences, Expr.occurrencesAll_eq_flatMap]
  exact List.mem_flatMap.2 ⟨e, he, hv⟩

/-- **Path constraints characterise the inputs of a path.** A recording path is reset and then branches
on conditions built from literals and free variables. The inputs it ran on satisfy its constraints.
Any other inputs do so just in case every symbolic condition comes out on them as it did. Over `bool`
and `int` the constraints are asserted, and as long as sums fit the assertions hold in the models of just
those inputs that satisfy them; inputs have models if names have one type each. A script that they cannot
be added to is left alone. -/
theorem constraints_characterise_inputs {start : Path} (hrec : start.recording = true)
    {conds : List (Tracked × Nat)} (hconds : ∀ c ∈ conds, c.1.Built ∧ c.1.ty = .bool)
    {outcomes : List Bool} {path : Path} (hrun : start.reset.branchAll conds = (outcomes, path)) :
    path.SatisfiedBy .zeros ∧
    (∀ env, path.SatisfiedBy env ↔ List.Forall₂
      (fun c taken => ∀ e, c.1.companion = some e → e.value env = .bool taken) conds outcomes) ∧
    ((∀ c ∈ conds, ∀ e, c.1.companion = some e → e.overSorts = true) → ∀ script,
      ∃ script' added, path.encodeIn.run.run script = (.ok (), script') ∧
        script'.assertions = script.assertions ++ added ∧
        ∀ env m, (∀ e ∈ path.constraints, Model.Follows m env e ∧ e.sumsPass sumFits env = true) →
          ((∀ t ∈ added, m.Holds t) ↔ path.SatisfiedBy env)) ∧
    ((∀ v ∈ Expr.occurrencesAll path.constraints, ∀ w ∈ Expr.occurrencesAll path.constraints,
      v.1 = w.1 → v.2 = w.2) → ∀ env, ∃ m, ∀ e ∈ path.constraints, Model.Follows m env e) ∧
    ∀ script e, (path.encodeIn.run.run script).1 = .error e → (path.encodeIn.run.run script).2 = script := by
  have hreset : start.reset.recording = true := hrec
  rw [branchAll_eq hreset, Prod.mk.injEq] at hrun
  obtain ⟨rfl, hpath⟩ := hrun
  have hconstraints : path.constraints = conds.filterMap noted := by
    rw [← hpath]
    exact List.nil_append _
  -- a companion is an expression of type `bool` whose nodes fit
  have hfits : ∀ c ∈ conds, ∀ e, c.1.companion = some e → e.ty = .bool ∧ e.fitted = true := by
    intro c hc e he
    obtain ⟨hty, hfit⟩ := (hconds c hc).1.sound.fits e he
    exact ⟨hty.trans (hconds c hc).2, hfit⟩
  have hsat : ∀ env, path.SatisfiedBy env ↔
      ∀ c ∈ conds, ∀ e, c.1.companion = some e → e.value env = .bool c.1.isTrue := by
    intro env
    rw [SatisfiedBy, hconstraints, forall_mem_noted]
    refine forall₂_congr fun c hc => forall₂_congr fun e he => ?_
    obtain ⟨hty, hfit⟩ := hfits c hc e he
    exact value_polarised_iff hty hfit c env
  refine ⟨(hsat .zeros).2 fun c hc e he => ?_, fun env => ?_, fun hsorts script => ?_, exists_follows,
    fun script e => encodeIn_failed⟩
  · have hagrees : c.1.toDual.value .zeros = c.1.data := (hconds c hc).1.sound.agrees .zeros rfl
    rw [← Dual.value_some he, hagrees]
    exact Scalar.eq_bool_of_ty (hconds c hc).2
  · rw [hsat env, List.forall₂_map_right_iff, List.forall₂_same]
  · refine encodeIn_asserts ?_ script
    rw [hconstraints, forall_mem_noted]
    intro c hc e he
    obtain ⟨hty, hfit⟩ := hfits c hc e he
    obtain ⟨hty', hfit'⟩ := polarised_fits hty hfit c
    rw [Expr.wellTyped, hfit', overSorts_polarised, hsorts c hc e he]
    exact ⟨rfl, hty'⟩

/-- Branches on `I < 5`, on `I == N + 1` and on a literal. -/
def crossing : List (Tracked × Nat) :=
  let i := (Tracked.any "I" .int 0).1
  let n := (Tracked.any "N" .int 1).1
  let next := (n.add (.new (.int 1)) ⟨true, true⟩ 2).1
  [((i.lt (.new (.int 5)) ⟨false, true⟩ 4).1, 6), ((i.equals next ⟨false, true⟩ 7).1, 8),
    (.new (.bool true), 9)]

/-- Branches on `I < 5` and on `C == 1`, where `C` is narrower than `int`. -/
def narrow : List (Tracked × Nat) :=
  let i := (Tracked.any "I" .int 0).1
  let c := (Tracked.any "C" .char 4).1
  [((i.lt (.new (.int 5)) ⟨false, true⟩ 1).1, 3), ((c.equals (.new (.char 1)) ⟨true, true⟩ 5).1, 8)]

/-- A script that has something in it. -/
def begun : Script := { logic := "ALL", declarations := [.const "D" .int], assertions := [.bool true] }

theorem crossing_characterises_inputs :
    (branchAll ⟨true, []⟩ crossing).1 = [true, false, true] ∧
    (∃ script' added, (branchAll ⟨true, []⟩ crossing).2.encodeIn.run.run begun = (.ok (), script') ∧
      script'.assertions = .bool true :: added ∧
      (∀ t ∈ added, Model.Holds { consts := [("I", .int 4), ("N", .int 4)] } t) ∧
      ¬ ∀ t ∈ added, Model.Holds { consts := [("I", .int 4), ("N", .int 3)] } t) ∧
    (branchAll ⟨true, []⟩ narrow).2.encodeIn.run.run begun = (.error (.unsupportedType .char), begun) := by
  have hcrossing : ∀ c ∈ crossing, c.1.Built ∧ c.1.ty = .bool := by
    have hi : ((Tracked.any "I" .int 0).1).Built := .any "I" .int 0
    have hn : ((Tracked.any "N" .int 1).1).Built := .any "N" .int 1
    simp only [crossing, List.forall_mem_cons]
    exact ⟨⟨.lt hi (.new _) _ _, rfl⟩, ⟨.equals hi (.add hn (.new _) _ _) _ _, rfl⟩, ⟨.new _, rfl⟩, by simp⟩
  have hnarrow : ∀ c ∈ narrow, c.1.Built ∧ c.1.ty = .bool := by
    simp only [narrow, List.forall_mem_cons]
    exact ⟨⟨.lt (.any "I" .int 0) (.new _) _ _, rfl⟩, ⟨.equals (.any "C" .char 4) (.new _) _ _, rfl⟩, by simp⟩
  have hrec : (⟨true, []⟩ : Path).recording = true := rfl
  obtain ⟨-, -, hasserts, -, -⟩ := constraints_characterise_inputs hrec hcrossing (Prod.eta _).symm
  obtain ⟨script', added, hscript, hadded, hholds⟩ := hasserts (by decide) begun
  obtain ⟨-, -, -, -, hfailed⟩ := constraints_characterise_inputs hrec hnarrow (Prod.eta _).symm
  refine ⟨by decide, ⟨script', added, hscript, hadded, ?_, ?_⟩, Prod.ext rfl (hfailed begun _ rfl)⟩
  · refine (hholds (.ofWords fun _ => 4) _ (by unfold Model.Follows; decide)).2 ?_
    unfold SatisfiedBy
    decide
  · rw [hholds (.ofWords fun name => if name = "N" then 3 else 4) _ (by unfold Model.Follows; decide)]
    unfold SatisfiedBy
    decide

end Path

end Symex

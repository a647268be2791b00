import Symex.Proofs.Unwinding

/-!
Soundness of joining. A structured program runs through the engine without an error, and if no guard
was concrete, its variables then denote, under every environment, the values that ordinary execution
gives them. The proof is an induction over statements; each kind of scope has its own lemma.
-/

namespace Symex

/-! ### Formulas -/

section
variable {α : Type}

theorem Mint.Makes.and {x : Mint α} {P Q : α → Prop} (hp : x.Makes P) (hq : x.Makes Q) :
    x.Makes fun a => P a ∧ Q a := fun n => ⟨hp n, hq n⟩

end

namespace Tracked

/-- A combined value was not read from a variable. -/
theorem combine_origin (st : Store) {op : Operator} {ty : Ty} {data : Scalar} {l r : Tracked}
    {own : Ownership} : (combine op ty data l r own).Makes st.Origin := by
  unfold combine
  split
  · exact fun _ => Store.origin_of_none rfl
  · exact fun _ => Store.origin_of_none rfl

theorem cast_origin {st : Store} {v : Tracked} (h : st.Origin v) (ty : Ty) :
    (v.cast ty).Makes st.Origin := by
  unfold cast
  split
  · exact .pure h
  · exact fun _ => Store.origin_of_none rfl

end Tracked

/-- A value that stands for a formula over the current values of the variables. -/
def Formula.Stands (f : Formula) (st : Store) (v : Tracked) : Prop :=
  v.Denotes f.ty (fun env => f.value env (st.values env)) ∧ st.Origin v

namespace Formula

/-- Both operands are built, then combined under any ownership. -/
theorem operands_yield {x y : Build Tracked} {P Q R : Tracked → Prop} (hx : x.Yields P) (hy : y.Yields Q)
    {op : Tracked → Tracked → Ownership → Mint Tracked}
    (h : ∀ l r own, P l → Q r → (op l r own).Makes R) (own : Nat → Ownership) :
    Build.Yields (do
      let l ← x
      let r ← y
      op l r (own (← MonadState.get))) R :=
  .bind hx fun l hl => .bind hy fun r hr =>
    .bind (P := fun _ => True) (fun n => ⟨n, n, rfl, trivial⟩) fun n _ => .mint (h l r (own n) hl hr)

/-- **Building a formula does not fail**, and gives a value that stands for it. -/
theorem build_yields {Γ : List Ty} {st : Store} (hst : st.Fits Γ) (own : Nat → Ownership) {f : Formula}
    (hf : f.fits Γ = true) : (f.build own st).Yields (f.Stands st) := by
  induction f with
  | new data => exact .pure ⟨Tracked.new_denotes data, Store.origin_of_none rfl⟩
  | any name ty =>
    refine .mint ((Tracked.any_makes name ty).and ?_)
    exact fun _ => Store.origin_of_none rfl
  | get x =>
    have hx : Γ[x.index]? = some x.ty := by simpa [fits] using hf
    have hval : ∀ env, (st.values env).getD x.index default = (st.state x.index).toDual.value env :=
      fun env => Store.getD_values env (hst.lt_size hx)
    refine .ofExcept (Store.get_eq hst hx) ⟨⟨hst.ty_state hx, fun env => (hval env).symm, ?_⟩, ?_⟩
    · intro env
      show ((st.values env).getD x.index default).ty = x.ty
      rw [hval, hst.typed _ (hst.lt_size hx), hst.ty_state hx]
    · rintro i n hi env
      cases hi
      rfl
  | add l r ihl ihr =>
    obtain ⟨hl, hr⟩ : l.fits Γ = true ∧ r.fits Γ = true := by simpa [fits] using hf
    refine operands_yield (ihl hl) (ihr hr) (fun v w own hv hw => ?_) own
    exact (Tracked.add_makes hv.1 hw.1 own).and (Tracked.combine_origin st)
  | lt l r ihl ihr =>
    obtain ⟨hl, hr⟩ : l.fits Γ = true ∧ r.fits Γ = true := by simpa [fits] using hf
    refine operands_yield (ihl hl) (ihr hr) (fun v w own hv hw => ?_) own
    exact (Tracked.lt_makes hv.1 hw.1 own).and (Tracked.combine_origin st)
  | equals l r ihl ihr =>
    obtain ⟨hl, hr⟩ : l.fits Γ = true ∧ r.fits Γ = true := by simpa [fits] using hf
    refine operands_yield (ihl hl) (ihr hr) (fun v w own hv hw => ?_) own
    exact (Tracked.equals_makes hv.1 hw.1 own).and (Tracked.combine_origin st)
  | and l r ihl ihr =>
    obtain ⟨⟨hl, htl⟩, hr, htr⟩ : (l.fits Γ = true ∧ l.ty = .bool) ∧ r.fits Γ = true ∧ r.ty = .bool := by
      simpa [fits] using hf
    refine operands_yield (ihl hl) (ihr hr) (fun v w own hv hw => ?_) own
    exact (Tracked.and_makes (htl ▸ hv.1) (htr ▸ hw.1) own).and (Tracked.combine_origin st)
  | or l r ihl ihr =>
    obtain ⟨⟨hl, htl⟩, hr, htr⟩ : (l.fits Γ = true ∧ l.ty = .bool) ∧ r.fits Γ = true ∧ r.ty = .bool := by
      simpa [fits] using hf
    refine operands_yield (ihl hl) (ihr hr) (fun v w own hv hw => ?_) own
    exact (Tracked.or_makes (htl ▸ hv.1) (htr ▸ hw.1) own).and (Tracked.combine_origin st)
  | not v ih =>
    obtain ⟨hv, ht⟩ : v.fits Γ = true ∧ v.ty = .bool := by simpa [fits] using hf
    refine .bind (ih hv) fun w hw => .mint ((Tracked.not_makes (ht ▸ hw.1)).and ?_)
    exact fun _ => Store.origin_of_none rfl
  | cast ty v ih =>
    exact .bind (ih hf) fun w hw => .mint ((Tracked.cast_makes hw.1 ty).and (Tracked.cast_origin hw.2 ty))

end Formula

/-! ### Statements -/

namespace Store

section
variable {Γ : List Ty} {st : Store}

theorem Assigned.effect {x : Var} {f : Env → Scalar} {st' : Store} (h : st.Assigned Γ x f st')
    {F : Env → List Scalar → List Scalar}
    (hF : ∀ env, F env (st.values env) = (st.values env).set x.index ((f env).convert x.ty)) :
    st.Effect Γ [x.index] F (st', []) := by
  refine ⟨h.fits, h.later, fun i hi => h.frame i (by simpa using hi), fun _ env => ?_⟩
  rw [hF]
  refine values_eq (by rw [List.length_set, length_values, h.later.size_eq]) fun i hi => ?_
  rw [h.later.size_eq] at hi
  by_cases hix : i = x.index
  · subst hix
    rw [h.value_eq, List.getElem?_set_self (by rw [length_values]; exact hi)]
  · rw [h.frame i hix, List.getElem?_set_ne (Ne.symm hix), getElem?_values env hi]

theorem effect_refl (hst : st.Fits Γ) (assigned : List Nat) :
    st.Effect Γ assigned (fun _ σ => σ) (st, []) :=
  ⟨hst, .refl st, fun _ _ => rfl, fun _ _ => rfl⟩

theorem Effect.trans {A B : List Nat} {f f' : Env → List Scalar → List Scalar}
    {r s : Store × List Tracked} (h : st.Effect Γ A f r) (h' : r.1.Effect Γ B f' s) :
    st.Effect Γ (A ++ B) (fun env σ => f' env (f env σ)) (s.1, r.2 ++ s.2) := by
  refine ⟨h'.fits, h.later.trans h'.later, fun i hi => ?_, fun hg env => ?_⟩
  · rw [List.mem_append, not_or] at hi
    exact (h'.frame i hi.2).trans (h.frame i hi.1)
  · rw [← h.values_eq (fun g hr => hg g (List.mem_append_left _ hr)) env]
    exact h'.values_eq (fun g hs => hg g (List.mem_append_right _ hs)) env

end

end Store

namespace Stmt

section
variable {Γ : List Ty} {st : Store} {A B : List Nat} {track : List Var}
  {f f' : Env → List Scalar → List Scalar} {arm other : Store → Build (Store × List Tracked)}

/-- An arm that is not taken has no effect. -/
theorem runArm_yields (hst : st.Fits Γ) (h : (arm st).Yields (st.Effect Γ A f)) (enter : Bool) :
    (runArm enter arm st).Yields (st.Effect Γ A fun env σ => if enter then f env σ else σ) := by
  cases enter with
  | true => exact h
  | false => exact .pure (Store.effect_refl hst A)

theorem tracked_lt_size (hst : st.Fits Γ) (ht : ∀ x ∈ track, Γ[x.index]? = some x.ty) :
    ∀ i ∈ trackedVars track, i < st.size := by
  intro i hi
  obtain ⟨x, hx, rfl⟩ := List.mem_map.1 (mem_trackedVars.1 hi)
  exact hst.lt_size (ht x hx)

/-- The values of a store that merges two arms. -/
theorem values_of_merged {g : Tracked} {yes no st' : Store} (h : Conditional.Merged Γ g st yes no st')
    (hy : yes.size = st.size) (hn : no.size = st.size) (hg : g.concrete = false) (env : Env) :
    st'.values env = if g.holdsIn env then yes.values env else no.values env := by
  have hval := h.value_eq hg env
  by_cases hh : g.holdsIn env = true
  · rw [if_pos hh]
    refine Store.values_congr (h.later.size_eq.trans hy.symm) fun i hi => ?_
    rw [hval i (hy ▸ hi), if_pos hh]
  · rw [if_neg hh]
    refine Store.values_congr (h.later.size_eq.trans hn.symm) fun i hi => ?_
    rw [hval i (hn ▸ hi), if_neg hh]

/-- **A conditional with one arm** runs it or leaves the values alone. -/
theorem ifThen_yields {g : Tracked} (hst : st.Fits Γ) (ht : ∀ x ∈ track, Γ[x.index]? = some x.ty)
    (hA : ∀ i ∈ A, i ∈ track.map Var.index) (harm : (arm st).Yields (st.Effect Γ A f)) :
    Build.Yields (do
      let c ← Conditional.tracking g track
      let (enter, c) := c.beginThen st
      let (st, inner) ← runArm (← enter) arm st
      let (closed, _, st) ← c.finish st
      closed
      return (st, g :: inner)) fun r =>
        st.Effect Γ A (fun env σ => if g.holdsIn env then f env σ else σ) r := by
  have hvars := tracked_lt_size hst ht
  refine .bind (.ofExcept (Conditional.tracking_eq g track) rfl) ?_
  rintro _ rfl
  rw [Conditional.beginThen_of_known rfl hvars]
  refine .bind (.ofExcept rfl rfl) ?_
  rintro _ rfl
  refine .bind (runArm_yields hst harm _) ?_
  rintro ⟨yes, inner⟩ he
  have hframe : ∀ i ∉ trackedVars track, yes.state i = st.state i := fun i hi =>
    he.frame i fun hm => hi (mem_trackedVars.2 (hA i hm))
  refine .bind (.mint (Conditional.finish_inThen_makes hst he.fits he.later hvars hframe)) ?_
  rintro ⟨_, c, st'⟩ ⟨rfl, hm⟩
  refine .bind (P := fun _ => True) (.ofExcept rfl trivial) fun _ _ => ?_
  refine .pure ⟨hm.fits, hm.later, fun i hi => hm.frame i (he.frame i hi) rfl, fun hgs env => ?_⟩
  have hg : g.concrete = false := hgs g (by simp)
  have hyes := he.values_eq (fun g' hg' => hgs g' (by simp [hg'])) env
  rw [values_of_merged hm he.later.size_eq rfl hg env, hyes]
  simp [hg]

/-- **A conditional with two arms** runs the one that the guard selects. The second one starts from
what the variables denoted on entry. -/
theorem ifElse_yields {g : Tracked} (hst : st.Fits Γ) (ht : ∀ x ∈ track, Γ[x.index]? = some x.ty)
    (hA : ∀ i ∈ A ++ B, i ∈ track.map Var.index) (harm : (arm st).Yields (st.Effect Γ A f))
    (hother : ∀ st : Store, st.Fits Γ → (other st).Yields (st.Effect Γ B f')) :
    Build.Yields (do
      let c ← Conditional.tracking g track
      let (enter, c) := c.beginThen st
      let (st, inner) ← runArm (← enter) arm st
      let (enter, c, st) := c.beginElse st
      let (st, others) ← runArm (← enter) other st
      let (closed, _, st) ← c.finish st
      closed
      return (st, g :: (inner ++ others))) fun r =>
        st.Effect Γ (A ++ B) (fun env σ => if g.holdsIn env then f env σ else f' env σ) r := by
  have hvars := tracked_lt_size hst ht
  refine .bind (.ofExcept (Conditional.tracking_eq g track) rfl) ?_
  rintro _ rfl
  rw [Conditional.beginThen_of_known rfl hvars]
  refine .bind (.ofExcept rfl rfl) ?_
  rintro _ rfl
  refine .bind (runArm_yields hst harm _) ?_
  rintro ⟨yes, inner⟩ he
  have hyesFrame : ∀ i ∉ trackedVars track, yes.state i = st.state i := fun i hi =>
    he.frame i fun hm => hi (mem_trackedVars.2 (hA i (List.mem_append_left _ hm)))
  dsimp only
  rw [Conditional.beginElse_of_known rfl fun i hi => he.later.size_eq ▸ hvars i hi]
  refine .bind (.ofExcept rfl rfl) ?_
  rintro _ rfl
  obtain ⟨hmid, hlater, hdual, hback⟩ :=
    Conditional.restore_fits hst he.later hvars hyesFrame rfl
  refine .bind (runArm_yields hmid (hother _ hmid) _) ?_
  rintro ⟨no, others⟩ he'
  have hnoFrame : ∀ i, yes.state i = st.state i → i ∉ B → no.state i = st.state i := fun i hy hi =>
    (he'.frame i hi).trans (hback i hy)
  have hnoLater : st.Later no := hlater.trans he'.later
  refine .bind (.mint (Conditional.finish_inElse_makes he.fits he'.fits he.later hnoLater hvars
    fun i hi => ⟨hyesFrame i hi, hnoFrame i (hyesFrame i hi) fun hm =>
      hi (mem_trackedVars.2 (hA i (List.mem_append_right _ hm)))⟩)) ?_
  rintro ⟨_, c, st'⟩ ⟨rfl, hm⟩
  refine .bind (P := fun _ => True) (.ofExcept rfl trivial) fun _ _ => ?_
  refine .pure ⟨hm.fits, hm.later, fun i hi => ?_, fun hgs env => ?_⟩
  · rw [List.mem_append, not_or] at hi
    exact hm.frame i (he.frame i hi.1) (hnoFrame i (he.frame i hi.1) hi.2)
  · have hg : g.concrete = false := hgs g (by simp)
    have hyes := he.values_eq (fun g' hg' => hgs g' (by simp [hg'])) env
    have hno := he'.values_eq (fun g' hg' => hgs g' (by simp [hg'])) env
    rw [Store.values_congr hlater.size_eq fun i _ => congrArg (Dual.value env) (hdual i)] at hno
    rw [values_of_merged hm he.later.size_eq hnoLater.size_eq hg env, hyes, hno]
    simp [hg]

end

/-- **Running a statement** does to what the variables denote what ordinary execution does to their
values. -/
theorem run_yields (own : Nat → Ownership) {Γ : List Ty} {s : Stmt} (hs : s.fits Γ = true)
    (ht : s.tracks = true) {st : Store} (hst : st.Fits Γ) :
    (s.run own st).Yields (st.Effect Γ s.assigned s.exec) := by
  induction s generalizing st with
  | skip => exact .pure (Store.effect_refl hst [])
  | assign x v =>
    obtain ⟨hx, hv⟩ : Γ[x.index]? = some x.ty ∧ v.fits Γ = true := by simpa [fits] using hs
    refine .bind (Formula.build_yields hst own hv) fun w hw => ?_
    refine .bind (Store.set_yields hst hx hw.1 hw.2) fun st' hst' => ?_
    exact .pure (hst'.effect fun _ => rfl)
  | seq a b iha ihb =>
    obtain ⟨ha, hb⟩ : a.fits Γ = true ∧ b.fits Γ = true := by simpa [fits] using hs
    obtain ⟨hta, htb⟩ : a.tracks = true ∧ b.tracks = true := by simpa [tracks] using ht
    refine .bind (iha ha hta hst) fun r hr => .bind (ihb hb htb hr.fits) fun r' hr' => ?_
    exact .pure (hr.trans hr')
  | ifThen g track yes ih =>
    obtain ⟨⟨⟨hg, hgt⟩, htr⟩, hy⟩ : ((g.fits Γ = true ∧ g.ty = .bool) ∧
        ∀ x ∈ track, Γ[x.index]? = some x.ty) ∧ yes.fits Γ = true := by simpa [fits] using hs
    obtain ⟨ha, hty⟩ : (∀ i ∈ yes.assigned, i ∈ track.map Var.index) ∧ yes.tracks = true := by
      simpa [tracks] using ht
    refine .bind (Formula.build_yields hst own hg) fun w hw => ?_
    refine (ifThen_yields hst htr ha (ih hy hty hst)).mono fun r hr => ?_
    refine ⟨hr.fits, hr.later, hr.frame, fun hgs env => (hr.values_eq hgs env).trans ?_⟩
    rw [Tracked.holdsIn, hw.1.value_eq]
    rfl
  | ifElse g track yes no ihy ihn =>
    obtain ⟨⟨⟨hg, hgt⟩, htr⟩, hy, hn⟩ : ((g.fits Γ = true ∧ g.ty = .bool) ∧
        ∀ x ∈ track, Γ[x.index]? = some x.ty) ∧ yes.fits Γ = true ∧ no.fits Γ = true := by
      simpa [fits] using hs
    obtain ⟨ha, hty, htn⟩ : (∀ i ∈ yes.assigned ++ no.assigned, i ∈ track.map Var.index) ∧
        yes.tracks = true ∧ no.tracks = true := by simpa [tracks, or_imp, forall_and] using ht
    refine .bind (Formula.build_yields hst own hg) fun w hw => ?_
    refine (ifElse_yields hst htr ha (ihy hy hty hst) fun st hst => ihn hn htn hst).mono fun r hr => ?_
    refine ⟨hr.fits, hr.later, hr.frame, fun hgs env => (hr.values_eq hgs env).trans ?_⟩
    rw [Tracked.holdsIn, hw.1.value_eq]
    rfl
  | loop bound g track body ih =>
    obtain ⟨⟨⟨hg, hgt⟩, htr⟩, hb⟩ : ((g.fits Γ = true ∧ g.ty = .bool) ∧
        ∀ x ∈ track, Γ[x.index]? = some x.ty) ∧ body.fits Γ = true := by simpa [fits] using hs
    obtain ⟨ha, htb⟩ : (∀ i ∈ body.assigned, i ∈ track.map Var.index) ∧ body.tracks = true := by
      simpa [tracks] using ht
    refine .bind (.ofExcept (Loop.tracking_eq bound track) rfl) ?_
    rintro _ rfl
    refine Loop.rounds_yields (fun st hst => ?_) (fun st hst => ih hb htb hst) (nodup_trackedVars track)
      (tracked_lt_size hst htr) (fun i hi => mem_trackedVars.2 (ha i hi)) bound hst
    refine (Formula.build_yields hst own hg).mono fun w hw env => ?_
    exact congrArg Scalar.isTrue (hw.1.value_eq env)

end Stmt

/-! ### Programs -/

/-- A declared variable comes after the others. -/
theorem Store.declare_fits {Γ : List Ty} {st : Store} (hst : st.Fits Γ) {v : Tracked} {ty : Ty}
    {f : Env → Scalar} (hv : v.Denotes ty f) :
    (st.declare v).2.Fits (Γ ++ [ty]) ∧
      ∀ env, (st.declare v).2.values env = st.values env ++ [f env] := by
  have hsize : (st.declare v).2.size = st.size + 1 := by simp [declare, size]
  have hnew : (st.declare v).2.state st.size = { v.toSlot with version := 0 } := by
    simp [declare, state, size]
  have hold : ∀ i < st.size, (st.declare v).2.state i = st.state i := fun i hi => by
    have hi : i < st.slots.length := hi
    simp [declare, state, List.getElem?_append_left hi]
  have cases : ∀ i < st.size + 1, i < st.size ∨ i = st.size := fun i hi => by omega
  refine ⟨⟨by rw [hsize, hst.size_eq]; simp, fun i hi => ?_, fun i hi => ?_⟩, fun env => ?_⟩
  · rcases cases i (hsize ▸ hi) with hi | rfl
    · rw [hold i hi, ← hst.ty_eq i hi, List.getElem?_append_left (by rw [← hst.size_eq]; exact hi)]
    · rw [hnew, hst.size_eq, List.getElem?_concat_length]
      exact congrArg some hv.ty_eq.symm
  · rcases cases i (hsize ▸ hi) with hi | rfl
    · rw [hold i hi]
      exact hst.typed i hi
    · rw [hnew]
      exact hv.typed
  · rw [← hv.value_eq env]
    simp [declare, values]

theorem declareAll_yields (own : Nat → Ownership) {vars : List Formula} {Γ : List Ty}
    (hv : declarationsFit Γ vars = true) {st : Store} (hst : st.Fits Γ) :
    (declareAll own vars st).Yields fun st' => st'.Fits (Γ ++ vars.map Formula.ty) ∧
      ∀ env, st'.values env = firstValues env vars (st.values env) := by
  induction vars generalizing Γ st with
  | nil => exact .pure ⟨by simpa using hst, fun _ => rfl⟩
  | cons v vars ih =>
    obtain ⟨hv, hvs⟩ : v.fits Γ = true ∧ declarationsFit (Γ ++ [v.ty]) vars = true := by
      simpa [declarationsFit] using hv
    refine .bind (Formula.build_yields hst own hv) fun w hw => ?_
    obtain ⟨hfits, hval⟩ := Store.declare_fits hst hw.1
    refine (ih hvs hfits).mono ?_
    rintro st' ⟨hst', hval'⟩
    refine ⟨by simpa using hst', fun env => ?_⟩
    rw [hval' env, hval env]
    rfl

/-- **Joining is sound.** A program runs through the engine to its end, and if no scope was handed a
concrete guard, every variable then denotes, under every environment, the value that ordinary
execution gives it. -/
theorem Program.run_denotes_exec (p : Program) (own : Nat → Ownership) (n : Nat) :
    ∃ st guards n', p.run own n = .ok ((st, guards), n') ∧
      ((∀ g ∈ guards, g.concrete = false) → ∀ env, st.values env = p.exec env) := by
  have hrun : (p.run own).Yields fun r =>
      (∀ g ∈ r.2, g.concrete = false) → ∀ env, r.1.values env = p.exec env := by
    have hempty : Store.Fits [] {} := ⟨rfl, by simp [Store.size], by simp [Store.size]⟩
    refine .bind (declareAll_yields own p.vars_fit hempty) ?_
    rintro st ⟨hst, hval⟩
    refine (Stmt.run_yields own p.body_fits p.body_tracks hst).mono fun r hr hgs env => ?_
    rw [hr.values_eq hgs env, hval env]
    rfl
  obtain ⟨⟨st, guards⟩, n', h, hval⟩ := hrun n
  exact ⟨st, guards, n', h, hval⟩

/-- While a number is below three, but at most twice: adds two if a flag is set and one if not, and
then clears the flag where the sum is three. -/
def climbing : Program where
  vars := [.any "start" .int, .any "fast" .bool]
  body :=
    let x : Var := ⟨0, .int⟩
    let fast : Var := ⟨1, .bool⟩
    .loop 2 (.lt (.get x) (.new (.int 3))) [x, fast]
      (.seq
        (.ifElse (.get fast) [x] (.assign x (.add (.get x) (.new (.int 2))))
          (.assign x (.add (.get x) (.new (.int 1)))))
        (.ifThen (.equals (.get x) (.new (.int 3))) [fast] (.assign fast (.new (.bool false)))))
  vars_fit := by decide
  body_fits := by decide
  body_tracks := by decide

theorem climbing_denotes_exec :
    ∃ st guards n', climbing.run (fun _ => ⟨true, true⟩) 0 = .ok ((st, guards), n') ∧
      (∀ g ∈ guards, g.concrete = false) ∧ ∀ env, st.values env = climbing.exec env := by
  obtain ⟨st, guards, n', h, hval⟩ := Program.run_denotes_exec climbing (fun _ => ⟨true, true⟩) 0
  have hguards : ((climbing.run (fun _ => ⟨true, true⟩) 0).toOption.map
      fun r => r.1.2.all fun g => !g.concrete) = some true := by decide +kernel
  rw [h] at hguards
  have hnc : ∀ g ∈ guards, g.concrete = false := by simpa [Except.toOption] using hguards
  exact ⟨st, guards, n', h, hnc, hval hnc⟩

end Symex

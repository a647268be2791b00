import Symex.Proofs.Joining
import Symex.Proofs.SessionVersions

/-!
The arms of a conditional do not see each other. Whatever is done to the store in the first arm, the
second one begins with the states that the tracked variables had on entry; and the end leaves those alone
that neither arm has modified, and gives each other one the data of the arm that the guard takes, one
version after both. A conditional knows a modification by its version alone. That is enough because
versions identify states, however the scopes inside an arm reset and join the same variables.
-/

namespace Symex

theorem joinArms_takes (g : Tracked) (e : Expr) (yes no : Slot) (version : Nat) :
    (joinArms g e yes no version).Makes fun s =>
      s.data = (if g.isTrue then yes else no).data ∧ s.version = version := by
  unfold joinArms
  generalize (if g.isTrue then yes else no) = taken
  dsimp only
  split
  · exact .pure ⟨rfl, rfl⟩
  · exact fun _ => ⟨rfl, rfl⟩

/-- The stores where two arms begin and end. -/
structure Arms where
  entry : Store
  yes : Store
  mid : Store
  no : Store

/-- An arm that is missing ends where it begins. -/
def Arms.single (entry yes : Store) : Arms := ⟨entry, yes, entry, entry⟩

/-- The store at the end of the arm that a guard takes. -/
def Arms.taken (a : Arms) (guard : Tracked) : Store := if guard.isTrue then a.yes else a.no

namespace Conditional

variable {c c' : Conditional} {st found : Store} {a : Arms}

/-- Neither arm has modified a variable. -/
def Untouched (a : Arms) (i : Nat) : Prop := a.yes.state i = a.entry.state i ∧ a.no.state i = a.mid.state i

instance (i : Nat) : Decidable (Untouched a i) := inferInstanceAs (Decidable (_ ∧ _))

/-- The store between the arms: tracked variables are as on entry except for their versions, and the others
are as the first arm has left them. -/
structure Restores (vars : List Nat) (entry yes mid : Store) : Prop where
  size_eq : mid.size = yes.size
  dual_eq : ∀ i ∈ vars, (mid.state i).toDual = (entry.state i).toDual
  concrete_eq : ∀ i ∈ vars, (mid.state i).concrete = (entry.state i).concrete
  frame : ∀ i ∉ vars, mid.state i = yes.state i

/-- What the end of a conditional makes of the store that it finds. -/
structure Leaves (guard : Tracked) (vars : List Nat) (a : Arms) (found left : Store) : Prop where
  size_eq : left.size = found.size
  untouched : ∀ i ∈ vars, Untouched a i → left.state i = a.entry.state i
  data_eq : ∀ i ∈ vars, ¬Untouched a i → (left.state i).data = ((a.taken guard).state i).data
  version_eq : ∀ i ∈ vars, ¬Untouched a i →
    (left.state i).version = max (a.yes.state i).version (a.no.state i).version + 1
  frame : ∀ i ∉ vars, left.state i = found.state i

/-! ### What is noted -/

/-- In its first arm, a conditional has noted the states of the entry. -/
structure InFirst (c : Conditional) (entry : Store) : Prop where
  phase_eq : c.phase = .inThen
  entry_eq : c.entry = c.vars.map entry.state

/-- In its second arm, it has noted those at the end of the first as well. -/
structure InSecond (c : Conditional) (entry yes : Store) : Prop where
  phase_eq : c.phase = .inElse
  entry_eq : c.entry = c.vars.map entry.state
  thenArm_eq : c.thenArm = c.vars.map yes.state

theorem beginThen_notes {b : Bool} (h : c.beginThen st = (.ok b, c')) :
    c'.guard = c.guard ∧ c'.vars = c.vars ∧ (∀ i ∈ c.vars, i < st.size) ∧ c'.InFirst st := by
  obtain ⟨-, hlt, rfl⟩ := beginThen_eq_ok h
  exact ⟨rfl, rfl, hlt, rfl, rfl⟩

/-! ### Between the arms -/

/-- What is put back is what the entry had; its version is the one it had, or is ahead of the first arm. -/
theorem beginElse_restores {entry yes : Store} (hc : c.InFirst entry) (hlt : ∀ i ∈ c.vars, i < entry.size)
    (hyes : entry.Evolves yes) :
    ∃ b c' mid, c.beginElse yes = (.ok b, c', mid) ∧ c'.guard = c.guard ∧ c'.vars = c.vars ∧
      c'.InSecond entry yes ∧ Restores c.vars entry yes mid ∧ ∀ i ∈ c.vars,
        (yes.state i = entry.state i → mid.state i = entry.state i) ∧
          (entry.state i).version ≤ (mid.state i).version := by
  have hlt' : ∀ i ∈ c.vars, i < yes.size := fun i hi => Nat.lt_of_lt_of_le (hlt i hi) hyes.size_le
  obtain ⟨hsize, hstate⟩ := state_restore yes hlt' entry.state yes.state
  rw [← hc.entry_eq] at hsize hstate
  have hrun := beginElse_of_known hc.phase_eq hlt'
  generalize (restore yes (c.vars.zip (c.entry.zip (c.vars.map yes.state)))).2 = mid at hrun hsize hstate
  -- a tracked variable is put back, or was not modified
  have cases : ∀ i ∈ c.vars, (yes.state i ≠ entry.state i ∧
      mid.state i = { entry.state i with version := (yes.state i).version + 1 }) ∨
        mid.state i = entry.state i := by
    intro i hi
    by_cases hv : (yes.state i).version = (entry.state i).version
    · refine .inr ?_
      rw [hstate i, if_neg fun h => h.2 hv]
      exact hyes.state_eq i (hlt i hi) hv
    · refine .inl ⟨fun h => hv (congrArg _ h), ?_⟩
      rw [hstate i, if_pos ⟨hi, hv⟩]
  refine ⟨_, _, mid, hrun, rfl, rfl, ⟨rfl, hc.entry_eq, rfl⟩, ⟨hsize, ?_, ?_, ?_⟩, ?_⟩
  · intro i hi
    rcases cases i hi with ⟨-, h⟩ | h <;> rw [h]
  · intro i hi
    rcases cases i hi with ⟨-, h⟩ | h <;> rw [h]
  · intro i hi
    rw [hstate i, if_neg fun h => hi h.1]
  · intro i hi
    have hle := hyes.version_le i (hlt i hi)
    rcases cases i hi with ⟨hne, h⟩ | h
    · refine ⟨fun heq => absurd heq hne, ?_⟩
      rw [h]
      exact Nat.le_succ_of_le hle
    · exact ⟨fun _ => h, Nat.le_of_eq (congrArg _ h.symm)⟩

/-! ### The end -/

/-- A variable is joined if and only if its version has changed in an arm. -/
theorem finish_joins {entry yes no : Store}
    (harms : c.arms found = .ok (c.vars.map yes.state, c.vars.map no.state))
    (hentry : c.entry = c.vars.map entry.state) (hlt : ∀ i ∈ c.vars, i < found.size) :
    (c.finish found).Makes fun r => r.1 = .ok () ∧ r.2.2.size = found.size ∧ ∀ i,
      (i ∈ c.vars ∧ ¬((yes.state i).version = (entry.state i).version ∧
          (no.state i).version = (entry.state i).version) →
        (r.2.2.state i).data = (if c.guard.isTrue then yes.state i else no.state i).data ∧
          (r.2.2.state i).version = max (yes.state i).version (no.state i).version + 1) ∧
      (i ∉ c.vars ∨ (yes.state i).version = (entry.state i).version ∧
          (no.state i).version = (entry.state i).version → r.2.2.state i = found.state i) := by
  intro n
  have hputs := joinAll_puts hlt entry.state
    (fun i _ => joinArms_takes c.guard (c.guard.toExpr n).1 (yes.state i) (no.state i) _) (c.guard.toExpr n).2
  rw [← hentry] at hputs
  rw [finish_of_arms harms]
  exact ⟨rfl, hputs⟩

/-- If versions identify states in both arms, those that are joined are those that an arm has modified. -/
theorem finish_leaves (harms : c.arms found = .ok (c.vars.map a.yes.state, c.vars.map a.no.state))
    (hentry : c.entry = c.vars.map a.entry.state) (hlt : ∀ i ∈ c.vars, i < a.entry.size)
    (hyes : a.entry.Evolves a.yes) (hno : a.mid.Evolves a.no) (hsize : a.entry.size ≤ a.mid.size)
    (hmid : ∀ i ∈ c.vars, (a.yes.state i = a.entry.state i → a.mid.state i = a.entry.state i) ∧
      (a.entry.state i).version ≤ (a.mid.state i).version) (hfound : found = a.yes ∨ found = a.no) :
    (c.finish found).Makes fun r => r.1 = .ok () ∧ Leaves c.guard c.vars a found r.2.2 := by
  have hle : a.entry.size ≤ found.size := by
    have h1 := hyes.size_le
    have h2 := hno.size_le
    rcases hfound with rfl | rfl <;> omega
  refine (finish_joins harms hentry fun i hi => Nat.lt_of_lt_of_le (hlt i hi) hle).mono ?_
  rintro ⟨_, c', left⟩ ⟨rfl, hleft, hjoin⟩
  have hchanged : ∀ i ∈ c.vars, ¬Untouched a i → ¬((a.yes.state i).version = (a.entry.state i).version ∧
      (a.no.state i).version = (a.entry.state i).version) := by
    rintro i hi hmod ⟨hy, hn⟩
    have hstate := hyes.state_eq i (hlt i hi) hy
    have hi' : i < a.mid.size := Nat.lt_of_lt_of_le (hlt i hi) hsize
    refine hmod ⟨hstate, hno.state_eq i hi' ?_⟩
    rw [hn, (hmid i hi).1 hstate]
  refine ⟨rfl, hleft, fun i hi h => ?_, fun i hi h => ?_, fun i hi h => ?_, fun i hi => (hjoin i).2 (.inl hi)⟩
  · obtain ⟨hy, hn⟩ := h
    rw [(hmid i hi).1 hy] at hn
    have hkept : left.state i = found.state i := (hjoin i).2 (.inr ⟨congrArg _ hy, congrArg _ hn⟩)
    rcases hfound with rfl | rfl
    · exact hkept.trans hy
    · exact hkept.trans hn
  · rw [((hjoin i).1 ⟨hi, hchanged i hi h⟩).1, Arms.taken]
    split <;> rfl
  · exact ((hjoin i).1 ⟨hi, hchanged i hi h⟩).2

/-- Without a second arm. -/
theorem finish_leaves_first {entry yes : Store} (hc : c.InFirst entry) (hlt : ∀ i ∈ c.vars, i < entry.size)
    (hyes : entry.Evolves yes) :
    (c.finish yes).Makes fun r => r.1 = .ok () ∧ Leaves c.guard c.vars (.single entry yes) yes r.2.2 := by
  have harms : c.arms yes = .ok (c.vars.map yes.state, c.vars.map entry.state) := by
    unfold arms
    rw [hc.phase_eq, Store.slotsOf_eq fun i hi => Nat.lt_of_lt_of_le (hlt i hi) hyes.size_le, hc.entry_eq]
    rfl
  exact finish_leaves (a := .single entry yes) harms hc.entry_eq hlt hyes (.refl entry) (Nat.le_refl _)
    (fun _ _ => ⟨fun _ => rfl, Nat.le_refl _⟩) (.inl rfl)

/-- With a second arm, which began with a store that was restored. -/
theorem finish_leaves_second (hc : c.InSecond a.entry a.yes) (hlt : ∀ i ∈ c.vars, i < a.entry.size)
    (hyes : a.entry.Evolves a.yes) (hsize : a.mid.size = a.yes.size)
    (hmid : ∀ i ∈ c.vars, (a.yes.state i = a.entry.state i → a.mid.state i = a.entry.state i) ∧
      (a.entry.state i).version ≤ (a.mid.state i).version) (hno : a.mid.Evolves a.no) :
    (c.finish a.no).Makes fun r => r.1 = .ok () ∧ Leaves c.guard c.vars a a.no r.2.2 := by
  have hle : a.entry.size ≤ a.mid.size := by
    rw [hsize]
    exact hyes.size_le
  have hlt' : ∀ i ∈ c.vars, i < a.no.size := fun i hi =>
    Nat.lt_of_lt_of_le (hlt i hi) (Nat.le_trans hle hno.size_le)
  have harms : c.arms a.no = .ok (c.vars.map a.yes.state, c.vars.map a.no.state) := by
    unfold arms
    rw [hc.phase_eq, Store.slotsOf_eq hlt', hc.thenArm_eq]
    rfl
  exact finish_leaves harms hc.entry_eq hlt hyes hno hle hmid (.inr rfl)

end Conditional

/-! ### Arms that run steps -/

namespace Session

open Conditional (Restores Leaves)

/-- The state after the steps of an arm, while some expressions are held outside. -/
def afterArm (s : Session) (held : List Expr) (steps : List Step) : Session :=
  ((runSteps held steps).run.run s).2

theorem evolves_afterArm (s : Session) (held : List Expr) (steps : List Step) (k : Nat) :
    (s.storeAt k).Evolves ((s.afterArm held steps).storeAt k) :=
  (runSteps_evolves held steps (.refl s)).1.store k

/-- **Arms are isolated.** Whatever steps run in them, a conditional that has begun can turn to its second
arm and can be closed, before or after that. The second arm finds the tracked variables as they were on
entry. The end leaves what neither arm has modified, and every other tracked variable takes the data of
the arm that the guard takes, one version after both. Untracked variables stay. -/
theorem arms_isolated {s : Session} {k : Nat} {c c₁ : Conditional} {b : Bool}
    (hbegin : c.beginThen (s.storeAt k) = (.ok b, c₁)) (held : List Expr) (yes : List Step) :
    let entry := s.storeAt k
    let afterYes := (s.afterArm held yes).storeAt k
    (c₁.finish afterYes).Makes (fun r => r.1 = .ok () ∧
        Leaves c.guard c.vars (.single entry afterYes) afterYes r.2.2) ∧
      ∃ b' c₂ mid, c₁.beginElse afterYes = (.ok b', c₂, mid) ∧ Restores c.vars entry afterYes mid ∧
        ∀ (s' : Session) (held' : List Expr) (no : List Step), s'.storeAt k = mid →
          let afterNo := (s'.afterArm held' no).storeAt k
          (c₂.finish afterNo).Makes fun r => r.1 = .ok () ∧
            Leaves c.guard c.vars ⟨entry, afterYes, mid, afterNo⟩ afterNo r.2.2 := by
  intro entry afterYes
  have hyes : entry.Evolves afterYes := s.evolves_afterArm held yes k
  obtain ⟨hguard, hvars, hlt, hfirst⟩ := Conditional.beginThen_notes hbegin
  rw [← hguard, ← hvars]
  rw [← hvars] at hlt
  refine ⟨Conditional.finish_leaves_first hfirst hlt hyes, ?_⟩
  obtain ⟨b', c₂, mid, helse, hguard₂, hvars₂, hsecond, hrestores, hmid⟩ :=
    Conditional.beginElse_restores hfirst hlt hyes
  refine ⟨b', c₂, mid, helse, hrestores, fun s' held' no hs' => ?_⟩
  have hno : mid.Evolves ((s'.afterArm held' no).storeAt k) := hs' ▸ s'.evolves_afterArm held' no k
  have hleaves := Conditional.finish_leaves_second (a := ⟨entry, afterYes, mid, _⟩) hsecond
    (hvars₂ ▸ hlt) hyes hrestores.size_eq (hvars₂ ▸ hmid) hno
  rwa [hguard₂, hvars₂] at hleaves

/-- Two variables, one of them a free one. -/
def twoVariables : Session :=
  (ofConfig {}).afterAll [.declare "x" (.any "X" .int) 0, .declare "y" (.new (.int 7)) 0]

/-- A choice that tracks both and is open. -/
def openChoice : Conditional :=
  { guard := ⟨⟨⟨.bool false, some (.any 9 "A" .bool)⟩, false, 0⟩, none⟩, vars := [0, 1] }

/-- An arm with a conditional inside, which resets and joins a variable itself. -/
def nestedArm : List Step :=
  [.cond (.any "B" .bool) ["x"] [.set "x" (.new (.int 1)) 0] (some [.set "x" (.new (.int 2)) 0]) 0,
    .declare "z" (.new (.bool true)) 0]

/-- The first arm leaves one variable four versions ahead. Without a second arm it is joined with its
entry, and the other variable stays; in a second arm it is as on entry again. -/
theorem nestedArm_isolated :
    let entry := twoVariables.storeAt 0
    let afterYes := (twoVariables.afterArm openChoice.held nestedArm).storeAt 0
    ∃ b c₁, openChoice.beginThen entry = (.ok b, c₁) ∧
      (c₁.finish afterYes).Makes (fun r => (r.2.2.state 0).data = (entry.state 0).data ∧
        (r.2.2.state 0).version = 5 ∧ r.2.2.state 1 = entry.state 1 ∧ r.2.2.state 2 = afterYes.state 2) ∧
      ∃ b' c₂ mid, c₁.beginElse afterYes = (.ok b', c₂, mid) ∧
        (mid.state 0).toDual = (entry.state 0).toDual ∧
        let inSecond : Session := { twoVariables with stores := [mid] }
        let afterNo := (inSecond.afterArm [] [.set "y" (.new (.int 5)) 0]).storeAt 0
        (c₂.finish afterNo).Makes fun r => r.1 = .ok () ∧
          Leaves openChoice.guard [0, 1] ⟨entry, afterYes, mid, afterNo⟩ afterNo r.2.2 := by
  intro entry afterYes
  have hbegin : openChoice.beginThen entry = (.ok _, _) :=
    Conditional.beginThen_of_known rfl (by decide +kernel)
  obtain ⟨hfirst, b', c₂, mid, helse, hrestores, hsecond⟩ :=
    arms_isolated hbegin openChoice.held nestedArm
  refine ⟨_, _, hbegin, hfirst.mono fun r ⟨_, hr⟩ => ⟨?_, ?_, ?_, ?_⟩, b', c₂, mid, helse,
    hrestores.dual_eq 0 (by decide), hsecond _ _ _ rfl⟩
  · exact hr.data_eq 0 (by decide) (by decide +kernel)
  · rw [hr.version_eq 0 (by decide) (by decide +kernel)]
    decide +kernel
  · exact hr.untouched 1 (by decide) (by decide +kernel)
  · exact hr.frame 2 (by decide)

end Session

end Symex

import Symex.Proofs.Passes
import Symex.Proofs.Recording

/-!
Well-sorted scripts. The term of an instruction is well-sorted (`HasSort`) whenever there is one. The script
of a recording is well-sorted just in case every write stores a value of the sort of what it writes to.
-/

namespace Symex

open Smt (Term TermSort Word)

/-! ### Sorts of instructions -/

/-- The sort of what an operator makes of operands of some sorts, if it makes something. -/
def Operator.sortOver (op : Operator) : List TermSort → TermSort
  | [s] => if op = .not then .bool else s
  | s :: _ => if op = .add then s else .bool
  | [] => .bool

namespace Memory

mutual
/-- The sort of the value of an instruction, if it has one. -/
def Instr.sort : Instr → TermSort
  | .lit s => s.ty.wordSort
  | .seen a => a.sort
  | .unary op i => op.sortOver [i.sort]
  | .binary op l r => op.sortOver [l.sort, r.sort]
  | .nary op _ is => op.sortOver (Instr.sortAll is)
  | .deref m _ =>
    match m.sort with
    | .array _ s => s
    | s => s
def Instr.sortAll : List Instr → List TermSort
  | [] => []
  | i :: is => i.sort :: Instr.sortAll is
end

/-- The only function of a script maps the number of a read to that of a write. -/
def IsReadsFrom (f : String) (args : List TermSort) (s : TermSort) : Prop :=
  f = readsFrom ∧ args = [.int] ∧ s = .int

/-- A well-sorted term of a sort that memory holds. -/
structure WordTerm (t : Term) (s : TermSort) : Prop where
  hasSort : t.HasSort IsReadsFrom s
  inMemory : s.InMemory

theorem WordTerm.hasSort_iff {t : Term} {s s' : TermSort} (h : WordTerm t s) :
    t.HasSort IsReadsFrom s' ↔ s = s' :=
  ⟨h.hasSort.unique, fun heq => heq ▸ h.hasSort⟩

theorem literal_word (s : Scalar) : WordTerm (literal s) s.ty.wordSort := by
  refine ⟨?_, s.ty.wordSort_inMemory⟩
  cases s with
  | bool b => exact .bool b
  | char v => exact Term.hasSort_ofInt (w := 8) (by decide) (by decide) _
  | short v => exact Term.hasSort_ofInt (w := 16) (by decide) (by decide) _
  | int v => exact Term.hasSort_ofInt (w := 32) (by decide) (by decide) _

theorem negate_word {t t' : Term} {s : TermSort} (h : WordTerm t s) (ht : negate t = .ok t') :
    WordTerm t' .bool := by
  refine ⟨?_, trivial⟩
  obtain ⟨s', hs, ht⟩ := bind_eq_ok.1 ht
  obtain rfl : s = s' := Except.ok.inj (h.hasSort.sort_eq.symm.trans hs)
  cases s with
  | bool =>
    cases ht
    exact .not h.hasSort
  | bitVec w =>
    cases ht
    have hle : w ≤ 32 := h.inMemory.2
    exact .eq h.hasSort (Term.hasSort_ofInt h.inMemory.1 (by omega) 0)
  | int => cases ht
  | array i e => cases ht

section
variable {l : List (Term × TermSort)}

/-- **An operator that is applied makes a well-sorted term.** -/
theorem applyWords_word {op : Operator} (hne : l ≠ []) (hl : ∀ p ∈ l, WordTerm p.1 p.2) {t : Term}
    (ht : applyWords op (l.map (·.1)) = .ok t) : WordTerm t (op.sortOver (l.map (·.2))) := by
  obtain ⟨s, hs, ht⟩ := bind_eq_ok.1 ht
  -- all operands have the common sort
  have hsort : ∀ p ∈ l, p.2 = s := by
    intro p hp
    have hp' := sort_of_commonSort hs p.1 (List.mem_map_of_mem hp)
    exact Except.ok.inj ((hl p hp).hasSort.sort_eq.symm.trans hp')
  have hterm : ∀ x ∈ l.map (·.1), x.HasSort IsReadsFrom s := by
    intro x hx
    obtain ⟨p, hp, rfl⟩ := List.mem_map.1 hx
    exact hsort p hp ▸ (hl p hp).hasSort
  match l, hne, hl, hsort, hterm, ht with
  | [p], _, hl, _, _, ht =>
    have hp := hl p (by simp)
    by_cases hop : op = .not
    · subst hop
      exact negate_word hp ht
    · have hpt : p.1 = t := applyAt_singleton hop ht
      rw [← hpt]
      simpa [Operator.sortOver, hop] using hp
  | p :: q :: l, _, hl, hsort, hterm, ht =>
    have hp := hl p (by simp)
    have hps : p.2 = s := hsort p (by simp)
    obtain ⟨rfl, ⟨w, rfl⟩, rfl⟩ | ⟨rfl, rfl, rfl⟩ | ⟨rfl, rfl, rfl⟩ | ⟨rfl, rfl⟩ |
      ⟨rfl, ⟨w, rfl⟩, rfl⟩ := applyAt_eq_ok ht
    · refine ⟨?_, hp.inMemory⟩
      show Term.HasSort _ _ p.2
      rw [hps]
      exact Term.hasSort_foldl_bvAdd (hterm _ (by simp)) fun u hu => hterm u (List.mem_cons_of_mem _ hu)
    · exact ⟨Term.hasSort_conj.2 hterm, trivial⟩
    · exact ⟨Term.hasSort_disj hterm, trivial⟩
    · exact ⟨Term.hasSort_chain fun x hx y hy => .eq (hterm x hx) (hterm y hy), trivial⟩
    · exact ⟨Term.hasSort_chain fun x hx y hy => .bvSlt (hterm x hx) (hterm y hy), trivial⟩

end

/-- An offset that is accepted is an index. -/
theorem indexTerm_hasSort {t t' : Term} {s : TermSort} (h : WordTerm t s) (ht : indexTerm t = .ok t') :
    t'.HasSort IsReadsFrom (.bitVec TermSort.indexWidth) := by
  obtain ⟨s', hs, ht⟩ := bind_eq_ok.1 ht
  obtain rfl : s = s' := Except.ok.inj (h.hasSort.sort_eq.symm.trans hs)
  cases s with
  | bool => cases ht
  | int => cases ht
  | array i e => cases ht
  | bitVec w =>
    dsimp only at ht
    split at ht
    · next hw =>
      cases ht
      exact hw ▸ h.hasSort
    · split at ht
      · next hne hlt =>
        cases ht
        have hsum : w + (TermSort.indexWidth - w) = TermSort.indexWidth := by omega
        have hext := h.hasSort.signExtend (TermSort.indexWidth - w)
        rwa [hsum] at hext
      · cases ht

mutual
/-- **The term of an instruction is well-sorted**, of the sort of the instruction. -/
theorem Instr.term_word (i : Instr) {t : Term} (ht : i.term = .ok t) : WordTerm t i.sort := by
  match i with
  | .lit s =>
    cases ht
    exact literal_word s
  | .seen a =>
    cases ht
    exact ⟨.const _ _, a.shape.sort_inMemory⟩
  | .unary op i =>
    obtain ⟨x, hx, ht⟩ := bind_eq_ok.1 ht
    have hi := i.term_word hx
    exact applyWords_word (l := [(x, i.sort)]) (by simp) (by simpa using hi) ht
  | .binary op l r =>
    obtain ⟨x, hx, ht⟩ := bind_eq_ok.1 ht
    obtain ⟨y, hy, ht⟩ := bind_eq_ok.1 ht
    have hl := l.term_word hx
    have hr := r.term_word hy
    exact applyWords_word (l := [(x, l.sort), (y, r.sort)]) (by simp) (by simpa using ⟨hl, hr⟩) ht
  | .nary op ty is =>
    unfold term at ht
    split at ht
    · cases ht
    · next hne =>
      obtain ⟨ts, hts, ht⟩ := bind_eq_ok.1 ht
      obtain ⟨l, rfl, hss, hl⟩ := termAll_words is hts
      rw [sort, hss]
      refine applyWords_word ?_ hl ht
      rintro rfl
      cases is with
      | nil => exact hne rfl
      | cons i is => cases hss
  | .deref a o =>
    obtain ⟨x, hx, ht⟩ := bind_eq_ok.1 ht
    obtain ⟨y, hy, ht⟩ := bind_eq_ok.1 ht
    obtain ⟨k, hk, ht⟩ := bind_eq_ok.1 ht
    have ha := a.term_word hx
    have ho := o.term_word hy
    obtain ⟨e, he, ht⟩ := bind_eq_ok.1 ht
    cases ht
    -- the array has the sort that was looked at
    obtain ⟨s, hs, he⟩ := bind_eq_ok.1 he
    have hs : a.sort = s := Except.ok.inj (ha.hasSort.sort_eq.symm.trans hs)
    rw [hs] at ha
    cases s with
    | bool => cases he
    | int => cases he
    | bitVec w => cases he
    | array i s =>
      obtain ⟨rfl, hmem⟩ := ha.inMemory
      rw [sort, hs]
      exact ⟨.select ha.hasSort (indexTerm_hasSort ho hk), hmem⟩
theorem Instr.termAll_words (is : List Instr) {ts : List Term} (hts : Instr.termAll is = .ok ts) :
    ∃ l : List (Term × TermSort), ts = l.map (·.1) ∧ Instr.sortAll is = l.map (·.2) ∧
      ∀ p ∈ l, WordTerm p.1 p.2 := by
  match is with
  | [] =>
    cases hts
    exact ⟨[], rfl, rfl, by simp⟩
  | i :: is =>
    obtain ⟨t, ht, hts⟩ := bind_eq_ok.1 hts
    obtain ⟨ts', hts', hts⟩ := bind_eq_ok.1 hts
    cases hts
    have hi := i.term_word ht
    obtain ⟨l, rfl, hss, hl⟩ := termAll_words is hts'
    refine ⟨(t, i.sort) :: l, rfl, ?_, ?_⟩
    · rw [Instr.sortAll, hss]
      rfl
    · rw [List.forall_mem_cons]
      exact ⟨hi, hl⟩
end

/-! ### Events -/

/-- The instruction whose value is stored, if there is one. -/
def Payload.stored : Payload → Option Instr
  | .none => Option.none
  | .value v | .store _ _ v => some v

/-- What an event stores has the sort of the words that it writes to. -/
def Event.StoresWord (e : Event) : Prop := ∀ v, e.payload.stored = some v → v.sort = e.shape.element.wordSort

instance (e : Event) : Decidable e.StoresWord :=
  match h : e.payload.stored with
  | none => .isTrue fun v hv => by rw [h] at hv; cases hv
  | some v =>
    if hv : v.sort = e.shape.element.wordSort then
      .isTrue fun u hu => by rw [h] at hu; cases hu; exact hv
    else .isFalse fun hw => hv (hw v h)

/-- One element is set in an array of the shape that the event has. -/
def Event.SetsElement (e : Event) : Prop :=
  ∀ m o v, e.payload = .store m o v → ∃ a element, m = .seen a ∧ a.shape = .array element ∧
    e.shape = .array element

/-- Guards, if there are any, are boolean. -/
def Event.BooleanGuard (e : Event) : Prop := ∀ c, e.condition = some c → c.sort = .bool

section
variable {e : Event}

theorem Event.BooleanGuard.hasSort (h : e.BooleanGuard) :
    ∀ t ∈ e.guardTerms, t.HasSort IsReadsFrom .bool := by
  intro t ht
  unfold guardTerms at ht
  split at ht
  · next g hg =>
    rcases guardTerm_eq_ok hg with ⟨-, rfl⟩ | ⟨c, u, hc, hu, rfl⟩
    · cases ht
    · obtain rfl : t = u := by simpa using ht
      have hterm := (c.term_word hu).hasSort
      rwa [h c hc] at hterm
  · cases ht

theorem Event.storesWord_iff {v : Instr} (h : e.payload.stored = some v) :
    e.StoresWord ↔ v.sort = e.shape.element.wordSort := by
  constructor
  · exact fun hw => hw v h
  · intro hv u hu
    rw [h] at hu
    exact Option.some.inj hu ▸ hv

/-- What is stored has the sort of the memory it is stored to just in case the words have. -/
theorem Event.payload_hasSort_iff (hset : e.SetsElement) {u : Term} (hu : e.payloadTerm = .ok (some u)) :
    u.HasSort IsReadsFrom e.sort ↔ e.StoresWord := by
  unfold payloadTerm at hu
  unfold Access.sort
  split at hu
  · cases hu
  · next v hpay =>
    have hstored : e.payload.stored = some v := by rw [hpay]; rfl
    rw [storesWord_iff hstored]
    split at hu
    · next ty hshape =>
      obtain ⟨t, ht, heq⟩ := map_eq_ok.1 hu
      cases heq
      rw [hshape]
      exact (v.term_word ht).hasSort_iff
    · next ty hshape =>
      obtain ⟨t, ht, heq⟩ := bind_eq_ok.1 hu
      cases heq
      have hword : t.HasSort IsReadsFrom ty.wordSort ↔ v.sort = ty.wordSort := (v.term_word ht).hasSort_iff
      rw [Access.sort, hshape]
      refine Iff.trans ?_ hword
      constructor
      · intro h
        cases h with
        | constArray _ h => exact h
      · exact fun h => .constArray _ h
  · next m o v hpay =>
    have hstored : e.payload.stored = some v := by rw [hpay]; rfl
    rw [storesWord_iff hstored]
    obtain ⟨a, ty, rfl, hashape, hshape⟩ := hset m o v hpay
    obtain ⟨x, hx, hu⟩ := bind_eq_ok.1 hu
    obtain ⟨y, hy, hu⟩ := bind_eq_ok.1 hu
    obtain ⟨k, hk, hu⟩ := bind_eq_ok.1 hu
    obtain ⟨t, ht, hu⟩ := bind_eq_ok.1 hu
    cases hu
    cases hx
    have hasort : a.sort = .arrayOf ty.wordSort := by rw [Access.sort, hashape]; rfl
    have hword : t.HasSort IsReadsFrom ty.wordSort ↔ v.sort = ty.wordSort := (v.term_word ht).hasSort_iff
    rw [hasort, hshape]
    refine Iff.trans ?_ hword
    constructor
    · intro h
      cases h with
      | store ha _ hv =>
        have harr := ha.unique (.const _ _)
        cases harr
        exact hv
    · exact fun h => .store (.const _ _) (indexTerm_hasSort (o.term_word hy) hk) h

theorem Event.stored_eq_none (h : e.payloadTerm = .ok none) : e.payload.stored = none := by
  unfold payloadTerm at h
  split at h
  · next hpay =>
    rw [hpay]
    rfl
  · split at h
    · obtain ⟨t, -, heq⟩ := map_eq_ok.1 h
      cases heq
    · obtain ⟨t, -, heq⟩ := bind_eq_ok.1 h
      cases heq
  · obtain ⟨x, -, h⟩ := bind_eq_ok.1 h
    obtain ⟨y, -, h⟩ := bind_eq_ok.1 h
    obtain ⟨k, -, h⟩ := bind_eq_ok.1 h
    obtain ⟨t, -, h⟩ := bind_eq_ok.1 h
    cases h

/-- **The equation of a write is well-sorted just in case it stores what it writes to.** -/
theorem Event.storeClause_hasSort_iff (hset : e.SetsElement) {p : Option Term}
    (hp : e.payloadTerm = .ok p) : e.storeClause.HasSort IsReadsFrom .bool ↔ e.StoresWord := by
  unfold storeClause
  rw [hp]
  cases p with
  | some u => exact Term.hasSort_eq_const.trans (payload_hasSort_iff hset hp)
  | none =>
    refine ⟨fun _ v hv => ?_, fun _ => .bool true⟩
    rw [stored_eq_none hp] at hv
    cases hv

end

/-! ### The formula -/

theorem seesTerm_hasSort (w r : Access) : (seesTerm w r).HasSort IsReadsFrom .bool := by
  refine .eq (.int _) (.apply ⟨rfl, rfl, rfl⟩ rfl fun p hp => ?_)
  obtain rfl : p = (eventNumber r.id, .int) := by simpa using hp
  exact .int _

theorem happensBefore_hasSort (x y : Access) :
    (happensBefore x.clockTerm y.clockTerm).HasSort IsReadsFrom .bool :=
  .lt (.const _ _) (.const _ _)

theorem seesClause_hasSort {r w : Event} (hr : r.BooleanGuard) (hw : w.BooleanGuard)
    (hsort : w.sort = r.sort) : (seesClause r w).HasSort IsReadsFrom .bool := by
  refine .implies (seesTerm_hasSort _ _) (Term.hasSort_conj.2 fun t ht => ?_)
  simp only [List.mem_append, List.mem_singleton] at ht
  rcases ht with ((rfl | ht) | ht) | rfl
  · exact happensBefore_hasSort _ _
  · exact hw.hasSort t ht
  · exact hr.hasSort t ht
  · rw [Access.valueTerm, Access.valueTerm, hsort]
    exact .eq (.const _ _) (.const _ _)

theorem sourceClause_hasSort (rel : Relation) {r : Event} (hr : r.BooleanGuard) :
    (sourceClause rel r).HasSort IsReadsFrom .bool := by
  refine .implies ?_ (Term.hasSort_disj fun t ht => ?_)
  · cases hg : r.guardTerms with
    | nil => exact .bool true
    | cons t ts => exact hr.hasSort t (by simp [hg])
  · obtain ⟨w, -, rfl⟩ := List.mem_map.1 ht
    exact seesTerm_hasSort _ _

theorem serialClause_hasSort {rel : Relation} {atom : Zone} {t : Term}
    (h : serialClause rel atom = some t) : t.HasSort IsReadsFrom .bool := by
  unfold serialClause at h
  split at h
  · cases h
  · cases h
    refine .distinct (s := .int) fun t ht => ?_
    obtain ⟨w, -, rfl⟩ := List.mem_map.1 ht
    exact .const _ _

theorem replaceClause_hasSort {x y r : Event} (hy : y.BooleanGuard) :
    (replaceClause (x, y, r)).HasSort IsReadsFrom .bool := by
  refine .implies (Term.hasSort_conj.2 fun t ht => ?_) (happensBefore_hasSort _ _)
  simp only [List.mem_append, List.mem_cons, List.not_mem_nil, or_false] at ht
  rcases ht with (rfl | rfl) | ht
  · exact seesTerm_hasSort _ _
  · exact happensBefore_hasSort _ _
  · exact hy.hasSort t ht

/-- **The formula of a relation is well-sorted just in case all writes store what they write to.** The
clauses of reads and of the order always are. -/
theorem formula_hasSort_iff {rel : Relation} {R : Nat → TermSort → Prop} {K : String → TermSort → Prop}
    (hk : rel.Known R K) (hset : ∀ e ∈ rel.events, e.SetsElement)
    (hguard : ∀ e ∈ rel.events, e.BooleanGuard) :
    (formula rel).HasSort IsReadsFrom .bool ↔ ∀ e ∈ rel.writes, e.StoresWord := by
  have hreads : ∀ t ∈ (rel.reads.map (readClauses rel)).flatten, t.HasSort IsReadsFrom .bool := by
    intro t ht
    obtain ⟨ts, hts, ht⟩ := List.mem_flatten.1 ht
    obtain ⟨r, hr, rfl⟩ := List.mem_map.1 hts
    have hrg := hguard r (List.mem_filter.1 hr).1
    unfold readClauses at ht
    split at ht
    · cases ht
    · next hz =>
      rcases List.mem_append.1 ht with ht | ht
      · obtain ⟨w, hw, rfl⟩ := List.mem_map.1 ht
        exact seesClause_hasSort hrg (hguard w (Relation.mem_find.1 hw).1)
          ((hk.read r hr (by simpa using hz)).write_sort w hw)
      · obtain rfl := List.mem_singleton.1 ht
        exact sourceClause_hasSort rel hrg
  have hserial : ∀ t ∈ (rel.atoms.map (serialClause rel)).filterMap id, t.HasSort IsReadsFrom .bool := by
    intro t ht
    obtain ⟨o, ho, rfl⟩ := List.mem_filterMap.1 ht
    obtain ⟨atom, -, ho⟩ := List.mem_map.1 ho
    exact serialClause_hasSort ho
  have hreplace : ∀ t ∈ (allFrTriples rel).map replaceClause, t.HasSort IsReadsFrom .bool := by
    intro t ht
    obtain ⟨⟨x, y, r⟩, hxyr, rfl⟩ := List.mem_map.1 ht
    have hy := (mem_allFrTriples.1 hxyr).2.1
    exact replaceClause_hasSort (hguard y (Relation.mem_writes.1 hy).1)
  have hwrites : (∀ t ∈ rel.writes.map Event.storeClause, t.HasSort IsReadsFrom .bool) ↔
      ∀ e ∈ rel.writes, e.StoresWord := by
    rw [List.forall_mem_map]
    refine forall₂_congr fun e he => ?_
    obtain ⟨p, hp⟩ := (hk.write e he).encoded
    exact Event.storeClause_hasSort_iff (hset e (List.mem_filter.1 he).1) hp
  rw [formula, Term.hasSort_conj]
  simp only [List.forall_mem_cons, Term.hasSort_conj, hwrites]
  exact ⟨fun h => h.1, fun h => ⟨h, hreads, hserial, hreplace, List.forall_mem_nil _⟩⟩

/-! ### Recordings -/

namespace Recorder

/-- Open guards are boolean, and so are the guards of all events; elements are set in arrays. -/
structure BooleanGuards (r : Recorder) : Prop where
  open_guard : ∀ g ∈ r.guards, g.sort = .bool
  guard : ∀ e ∈ r.events, e.BooleanGuard
  setsElement : ∀ e ∈ r.events, e.SetsElement

variable {r : Recorder}

theorem BooleanGuards.condition (h : r.BooleanGuards) {c : Instr} (hc : r.condition = some c) :
    c.sort = .bool := by
  unfold Recorder.condition at hc
  split at hc
  · cases hc
  · next g hg =>
    cases hc
    exact h.open_guard c (by simp [hg])
  · next guards h0 h1 =>
    cases hc
    match hgs : r.guards with
    | [] => exact absurd hgs h0
    | [g] => exact absurd hgs (h1 g)
    | g :: g' :: rest => rfl

theorem BooleanGuards.record (h : r.BooleanGuards) (shape : Shape) (addr : Address) (payload : Payload)
    (hp : ∀ m o v, payload = .store m o v → ∃ a element, m = .seen a ∧ a.shape = .array element ∧
      shape = .array element) : (r.record shape addr payload).2.BooleanGuards := by
  refine ⟨h.open_guard, fun e he => ?_, fun e he => ?_⟩
  · rcases List.mem_append.1 he with he | he
    · exact h.guard e he
    · obtain rfl := List.mem_singleton.1 he
      exact fun c hc => h.condition hc
  · rcases List.mem_append.1 he with he | he
    · exact h.setsElement e he
    · obtain rfl := List.mem_singleton.1 he
      exact hp

theorem BooleanGuards.perform (h : r.BooleanGuards) {op : Op}
    (hop : ∀ g, op = .pushGuard g → g.sort = .bool) : (r.perform op).BooleanGuards := by
  cases op with
  | pushGuard g =>
    refine ⟨fun g' hg' => ?_, h.guard, h.setsElement⟩
    rcases List.mem_append.1 hg' with hg' | hg'
    · exact h.open_guard g' hg'
    · obtain rfl := List.mem_singleton.1 hg'
      exact hop g' rfl
  | popGuard => exact ⟨fun g hg => h.open_guard g ((List.dropLast_sublist _).subset hg), h.guard, h.setsElement⟩
  | read ty addr => exact h.record _ _ _ fun _ _ _ heq => nomatch heq
  | readArray ty addr => exact h.record _ _ _ fun _ _ _ heq => nomatch heq
  | write addr v => exact h.record _ _ _ fun _ _ _ heq => nomatch heq
  | writeArray addr ty init => exact h.record _ _ _ fun _ _ _ heq => nomatch heq
  | writeIndirect memory offset v =>
    rw [Recorder.perform]
    unfold writeIndirect
    split
    · next heq =>
      split at heq
      · next element _ hshape =>
        cases heq
        refine h.record _ _ _ fun m o u heq => ?_
        cases heq
        exact ⟨memory, element, rfl, hshape, hshape⟩
      · cases heq
    · exact h

/-- **Guards of a recording are boolean if those that are pushed are.** -/
theorem booleanGuards_after {ops : List Op} (h : ∀ g, .pushGuard g ∈ ops → g.sort = .bool) :
    (after ops).BooleanGuards := by
  have hnew : BooleanGuards {} := ⟨nofun, nofun, nofun⟩
  suffices hall : ∀ r : Recorder, r.BooleanGuards → (r.performAll ops).BooleanGuards from hall {} hnew
  induction ops with
  | nil => exact fun r hr => hr
  | cons op ops ih =>
    intro r hr
    have hop : ∀ g, op = .pushGuard g → g.sort = .bool := by
      rintro g rfl
      exact h g List.mem_cons_self
    exact ih (fun g hg => h g (List.mem_cons_of_mem _ hg)) _ (hr.perform hop)

theorem BooleanGuards.formula_hasSort_iff (h : r.BooleanGuards) (hn : r.Numbered)
    {R : Nat → TermSort → Prop} {K : String → TermSort → Prop} (hk : r.relation.Known R K) :
    (formula r.relation).HasSort IsReadsFrom .bool ↔
      ∀ e ∈ r.events, e.addr.shared = true → e.StoresWord := by
  have hmem : ∀ {e : Event}, e ∈ r.relation.events → e ∈ r.events := fun he => (hn.mem_relation.1 he).1
  rw [Memory.formula_hasSort_iff hk (fun e he => h.setsElement e (hmem he)) fun e he => h.guard e (hmem he)]
  constructor
  · intro hwrites e he hshared v hv
    -- an event that stores something is a write
    have hwrite : e.isWrite = true := by
      have hkind := hn.kind_eq e he
      cases hp : e.payload with
      | none =>
        rw [hp] at hv
        cases hv
      | value u =>
        rw [hp] at hkind
        simp [Access.isWrite, Access.isRead, hkind, Payload.kind]
      | store m o u =>
        rw [hp] at hkind
        simp [Access.isWrite, Access.isRead, hkind, Payload.kind]
    exact hwrites e (Relation.mem_writes.2 ⟨hn.mem_relation.2 ⟨he, hshared⟩, hwrite⟩) v hv
  · intro hall e he
    obtain ⟨hev, hshared⟩ := hn.mem_relation.1 (Relation.mem_writes.1 he).1
    exact hall e hev hshared

end Recorder

/-- A script that is there holds the formula and bounds of clocks. -/
theorem encode_assertions {rel : Relation} {c : Config} {script : Smt.Script}
    (h : encode rel c = .ok script) : rel.Known (fun _ _ => True) (fun _ _ => True) ∧
      formula rel ∈ script.assertions ∧
      ∀ t ∈ script.assertions, t = formula rel ∨ ∃ id, t = clockBound c.clockLowerBound id := by
  have hs := encode_encoded rel.requests_any h
  refine ⟨hs.known _ fun _ _ _ => trivial, (hs.mem_assertions _).2 (.inl rfl), fun t ht => ?_⟩
  rcases (hs.mem_assertions t).1 ht with rfl | ⟨id, -, rfl⟩
  · exact .inl rfl
  · exact .inr ⟨id, rfl⟩

/-- **Which scripts are well-sorted.** If all guards that are pushed are boolean and a recording is
encoded, then the assertions of its script are well-sorted booleans just in case every shared write
stores a value of the sort of the words that it writes to. -/
theorem encode_wellSorted_iff {ops : List Recorder.Op} (hguards : ∀ g, .pushGuard g ∈ ops → g.sort = .bool)
    {c : Config} {script : Smt.Script} (h : encode (Recorder.after ops).relation c = .ok script) :
    (∀ t ∈ script.assertions, t.HasSort IsReadsFrom .bool) ↔
      ∀ e ∈ (Recorder.after ops).events, e.addr.shared = true → e.StoresWord := by
  obtain ⟨hk, hformula, hall⟩ := encode_assertions h
  rw [← (Recorder.booleanGuards_after hguards).formula_hasSort_iff (Recorder.numbered_after ops) hk]
  refine ⟨fun hsorted => hsorted _ hformula, fun hsorted t ht => ?_⟩
  rcases hall t ht with rfl | ⟨id, rfl⟩
  · exact hsorted
  · exact .gt (.const _ _) (.int _)

/-- An array is set, read, and changed at an index that was read, under a guard. -/
def indexedWrites : List Recorder.Op :=
  let cells : Address := .ofPtr 1 true
  let array : Access := ⟨2, .read, .array .short, cells⟩
  let index : Instr := .seen ⟨3, .read, .scalar .char, .ofPtr 2 true⟩
  [.writeArray cells .short (.int 7), .readArray .short cells, .read .char (.ofPtr 2 true),
    .pushGuard (.binary .lt index (.lit (.char 9))), .pushGuard (.unary .not index),
    .writeIndirect array index (.binary .add (.deref (.seen array) index) (.lit (.short 1))), .popGuard,
    .write (.ofPtr 2 true) (.lit (.char 3))]

theorem indexedWrites_wellSorted :
    (∀ g, .pushGuard g ∈ indexedWrites → g.sort = .bool) ∧
    ∃ script, encode (Recorder.after indexedWrites).relation {} = .ok script ∧
      ∀ t ∈ script.assertions, t.HasSort IsReadsFrom .bool := by
  have hguards : ∀ g, .pushGuard g ∈ indexedWrites → g.sort = .bool := by
    intro g hg
    simp only [indexedWrites, List.mem_cons, List.not_mem_nil, or_false, reduceCtorEq, false_or,
      Recorder.Op.pushGuard.injEq] at hg
    rcases hg with rfl | rfl
    · rfl
    · rfl
  have hrun : (encode (Recorder.after indexedWrites).relation {}).toOption.isSome = true := by
    decide +kernel
  obtain ⟨script, hs⟩ := Option.isSome_iff_exists.1 hrun
  have hscript := eq_ok_of_toOption hs
  refine ⟨hguards, script, hscript, (encode_wellSorted_iff hguards hscript).2 ?_⟩
  decide +kernel

/-- A recording that stores a value of another sort is encoded to a script that is not well-sorted. -/
theorem exists_illSorted {ops : List Recorder.Op} (hguards : ∀ g, .pushGuard g ∉ ops)
    (hrun : (encode (Recorder.after ops).relation {}).toOption.isSome = true)
    (hmisfit : ¬ ∀ e ∈ (Recorder.after ops).events, e.addr.shared = true → e.StoresWord) :
    ∃ script, encode (Recorder.after ops).relation {} = .ok script ∧
      ¬ ∀ t ∈ script.assertions, t.HasSort IsReadsFrom .bool := by
  obtain ⟨script, hs⟩ := Option.isSome_iff_exists.1 hrun
  have hscript := eq_ok_of_toOption hs
  obtain ⟨hk, hformula, -⟩ := encode_assertions hscript
  have hbool := Recorder.booleanGuards_after fun g hg => absurd hg (hguards g)
  refine ⟨script, hscript, fun hsorted => hmisfit ?_⟩
  exact (hbool.formula_hasSort_iff (Recorder.numbered_after ops) hk).1 (hsorted _ hformula)

/-- The array of `char` that is read first. -/
def readCells : Access := ⟨1, .read, .array .char, .ofPtr 1 true⟩

/-- The array is written to where a word should be. -/
def arrayAsWord : List Recorder.Op :=
  [.readArray .char (.ofPtr 1 true), .write (.ofPtr 2 true) (.seen readCells)]

/-- A word of `int` is written into the array. -/
def wideElement : List Recorder.Op :=
  [.readArray .char (.ofPtr 1 true), .writeIndirect readCells (.lit (.int 0)) (.lit (.int 300))]

theorem misfitWrites_illSorted :
    (∀ g, .pushGuard g ∉ arrayAsWord ∧ .pushGuard g ∉ wideElement) ∧
    (∃ script, encode (Recorder.after arrayAsWord).relation {} = .ok script ∧
      ¬ ∀ t ∈ script.assertions, t.HasSort IsReadsFrom .bool) ∧
    ∃ script, encode (Recorder.after wideElement).relation {} = .ok script ∧
      ¬ ∀ t ∈ script.assertions, t.HasSort IsReadsFrom .bool := by
  have harray : ∀ g, .pushGuard g ∉ arrayAsWord := by simp [arrayAsWord]
  have hwide : ∀ g, .pushGuard g ∉ wideElement := by simp [wideElement]
  refine ⟨fun g => ⟨harray g, hwide g⟩, ?_, ?_⟩
  · exact exists_illSorted harray (by decide +kernel) (by decide +kernel)
  · exact exists_illSorted hwide (by decide +kernel) (by decide +kernel)

end Memory

end Symex

import Symex.Proofs.Calls
import Symex.Proofs.InstructionTerms
import Symex.Proofs.Recording
import Symex.Proofs.Support

/-!
What an instruction depends on. The reads of an instruction are the accesses in it, each once and in the order
of their first use. Encoding asks for their constants in that order and puts them, and no other symbols, into
the term, so the reads are declared in a script that was empty, and the term has the same value in all models
that agree on them.
-/

namespace Symex.Memory

open Smt (Term TermSort Declaration Model)

/-! ### First uses -/

section
variable {α β κ : Type} [Ord κ] [Std.TransOrd κ] [Std.LawfulEqOrd κ] [DecidableEq κ]

/-- Elements that come first are in the order of their first uses. -/
theorem firstUses_inOrder (key : α → κ) (l : List α) :
    (firstUses key l).Pairwise fun a b =>
      ∃ before after, l = before ++ a :: after ∧ ∀ c ∈ before, key c ≠ key b := by
  induction l with
  | nil => simp
  | cons x l ih =>
    rw [firstUses_cons, List.pairwise_cons]
    refine ⟨fun b _ => ⟨[], l, rfl, by simp⟩, (ih.filter _).imp_of_mem fun {a b} _ hb h => ?_⟩
    obtain ⟨before, after, rfl, hbefore⟩ := h
    have hx : key b ≠ key x := by simpa using (List.mem_filter.1 hb).2
    exact ⟨x :: before, after, rfl, List.forall_mem_cons.2 ⟨hx.symm, hbefore⟩⟩

/-- Keys that tell the same elements apart have the same first uses. -/
theorem firstUses_map {ι : Type} [Ord ι] [Std.TransOrd ι] [Std.LawfulEqOrd ι] [DecidableEq ι] {key : α → κ}
    {key' : β → ι} {f : α → β} (h : ∀ a b, key' (f a) = key' (f b) ↔ key a = key b) (l : List α) :
    firstUses key' (l.map f) = (firstUses key l).map f := by
  induction l with
  | nil => rfl
  | cons x l ih =>
    rw [List.map_cons, firstUses_cons, ih, firstUses_cons, List.map_cons, List.filter_map]
    refine congrArg (fun as => f x :: as.map f) (List.filter_congr fun a _ => ?_)
    simp [h]

end

namespace Instr

/-! ### Accesses -/

/-- The instructions that an instruction is put together from. -/
def operands : Instr → List Instr
  | .lit _ | .seen _ => []
  | .unary _ i => [i]
  | .binary _ l r => [l, r]
  | .nary _ _ is => is
  | .deref m o => [m, o]

/-- An access is somewhere in an instruction. -/
inductive Uses (a : Access) : Instr → Prop
  | seen : Uses a (.seen a)
  | operand {i j : Instr} : j ∈ i.operands → Uses a j → Uses a i

theorem uses_iff {a : Access} {i : Instr} : i.Uses a ↔ i = .seen a ∨ ∃ j ∈ i.operands, j.Uses a := by
  constructor
  · intro h
    cases h with
    | seen => exact .inl rfl
    | operand hj h => exact .inr ⟨_, hj, h⟩
  · rintro (rfl | ⟨j, hj, h⟩)
    · exact .seen
    · exact .operand hj h

mutual
theorem mem_accesses (i : Instr) {a : Access} : a ∈ i.accesses ↔ i.Uses a := by
  rw [uses_iff]
  match i with
  | .lit _ => simp [accesses, operands]
  | .seen b => simp [accesses, operands, eq_comm]
  | .unary _ i => simp [accesses, operands, mem_accesses i]
  | .binary _ l r => simp [accesses, operands, mem_accesses l, mem_accesses r]
  | .nary _ _ is => simp [accesses, operands, mem_accessesAll is]
  | .deref m o => simp [accesses, operands, mem_accesses m, mem_accesses o]
theorem mem_accessesAll (is : List Instr) {a : Access} : a ∈ accessesAll is ↔ ∃ i ∈ is, i.Uses a := by
  match is with
  | [] => simp [accessesAll]
  | i :: is => simp [accessesAll, mem_accesses i, mem_accessesAll is]
end

/-- Accesses that a list has once each, in the order of their first use in an instruction. -/
structure ListsUses (i : Instr) (as : List Access) : Prop where
  once : (as.map Access.id).Nodup
  used : ∀ a, a ∈ as ↔ i.Uses a
  ordered : as.Pairwise fun a b => ∃ before after, i.accesses = before ++ a :: after ∧ b ∉ before

/-- Where accesses are known by their numbers, the reads are the accesses. -/
theorem reads_listsUses {i : Instr} (h : ∀ a b, i.Uses a → i.Uses b → a.id = b.id → a = b) :
    i.ListsUses i.reads := by
  refine ⟨nodup_map_firstUses Access.id _, fun a => ?_, (firstUses_inOrder Access.id _).imp ?_⟩
  · rw [← mem_accesses]
    constructor
    · exact mem_of_mem_firstUses
    · intro ha
      obtain ⟨b, hb, hid⟩ := exists_mem_firstUses Access.id ha
      have huse := mem_of_mem_firstUses hb
      rw [h a b ((mem_accesses i).1 ha) ((mem_accesses i).1 huse) hid.symm]
      exact hb
  · rintro a b ⟨before, after, heq, hne⟩
    exact ⟨before, after, heq, fun hb => hne b hb rfl⟩

end Instr

/-! ### Symbols of terms -/

theorem literal_symbols (s : Scalar) : Term.SameSymbols [literal s] [] := by
  cases s with
  | bool b => exact .operands rfl
  | _ => exact .operands rfl

theorem negate_symbols {t t' : Term} (h : negate t = .ok t') : Term.SameSymbols [t'] [t] := by
  obtain ⟨s, -, h⟩ := bind_eq_ok.1 h
  cases s with
  | bool =>
    cases h
    exact .operands rfl
  | bitVec w =>
    cases h
    have heq : Term.SameSymbols [.eq t (.ofInt 0 w)] [t, .ofInt 0 w] := .operands rfl
    have hzero : Term.SameSymbols [.ofInt 0 w] [] := .operands rfl
    exact heq.trans ((Term.SameSymbols.refl [t]).cons hzero)
  | int => cases h
  | array i e => cases h

/-- An operator loses no operand. -/
theorem applyWords_symbols {op : Operator} {ts : List Term} (hne : ts ≠ []) {t : Term}
    (h : applyWords op ts = .ok t) : Term.SameSymbols [t] ts := by
  obtain ⟨s, -, h⟩ := bind_eq_ok.1 h
  match ts, hne with
  | [x], _ =>
    by_cases hop : op = .not
    · subst hop
      exact negate_symbols h
    · rw [applyAt_singleton hop h]
      exact .refl _
  | x :: y :: ts, _ =>
    obtain ⟨-, -, rfl⟩ | ⟨-, -, rfl⟩ | ⟨-, -, rfl⟩ | ⟨-, rfl⟩ | ⟨-, -, rfl⟩ := applyAt_eq_ok h
    · exact .foldl_bvAdd x (y :: ts)
    · exact .conj _
    · exact .disj _
    · exact .chain (fun _ _ => .operands rfl) (by simp)
    · exact .chain (fun _ _ => .operands rfl) (by simp)

theorem indexTerm_symbols {t t' : Term} (h : indexTerm t = .ok t') : Term.SameSymbols [t'] [t] := by
  obtain ⟨s, -, h⟩ := bind_eq_ok.1 h
  cases s with
  | bool => cases h
  | int => cases h
  | array i e => cases h
  | bitVec w =>
    dsimp only at h
    split at h
    · cases h
      exact .refl _
    · split at h
      · cases h
        exact .operands rfl
      · cases h

namespace Instr

theorem ne_nil_of_termAll {is : List Instr} (hne : is ≠ []) {ts : List Term} (h : termAll is = .ok ts) :
    ts ≠ [] := by
  cases is with
  | nil => exact absurd rfl hne
  | cons i is =>
    obtain ⟨t, -, h⟩ := bind_eq_ok.1 h
    obtain ⟨us, -, h⟩ := bind_eq_ok.1 h
    cases h
    simp

mutual
/-- **The symbols in the term of an instruction are the constants of its accesses.** -/
theorem term_symbols (i : Instr) {t : Term} (h : i.term = .ok t) :
    Term.SameSymbols [t] (i.accesses.map Access.valueTerm) := by
  match i with
  | .lit s =>
    cases h
    exact literal_symbols s
  | .seen a =>
    cases h
    exact .refl _
  | .unary op i =>
    obtain ⟨x, hx, h⟩ := bind_eq_ok.1 h
    exact (applyWords_symbols (by simp) h).trans (term_symbols i hx)
  | .binary op l r =>
    obtain ⟨x, hx, h⟩ := bind_eq_ok.1 h
    obtain ⟨y, hy, h⟩ := bind_eq_ok.1 h
    rw [accesses, List.map_append]
    exact (applyWords_symbols (by simp) h).trans ((term_symbols l hx).cons (term_symbols r hy))
  | .nary op ty is =>
    unfold term at h
    split at h
    · cases h
    · next hne =>
      obtain ⟨ts, hts, h⟩ := bind_eq_ok.1 h
      refine (applyWords_symbols (ne_nil_of_termAll ?_ hts) h).trans (termAll_symbols is hts)
      rintro rfl
      exact hne rfl
  | .deref m o =>
    obtain ⟨x, hx, h⟩ := bind_eq_ok.1 h
    obtain ⟨y, hy, h⟩ := bind_eq_ok.1 h
    obtain ⟨k, hk, h⟩ := bind_eq_ok.1 h
    obtain ⟨_, -, h⟩ := bind_eq_ok.1 h
    cases h
    have hselect : Term.SameSymbols [.select x k] [x, k] := .operands rfl
    rw [accesses, List.map_append]
    exact hselect.trans ((term_symbols m hx).cons ((indexTerm_symbols hk).trans (term_symbols o hy)))
theorem termAll_symbols (is : List Instr) {ts : List Term} (h : termAll is = .ok ts) :
    Term.SameSymbols ts ((accessesAll is).map Access.valueTerm) := by
  match is with
  | [] =>
    cases h
    exact .refl _
  | i :: is =>
    obtain ⟨t, ht, h⟩ := bind_eq_ok.1 h
    obtain ⟨us, hus, h⟩ := bind_eq_ok.1 h
    cases h
    rw [accessesAll, List.map_append]
    exact (term_symbols i ht).cons (termAll_symbols is hus)
end

/-- An instruction that is encoded in a script without symbols declares the constants of its reads. -/
theorem declarations_encode {i : Instr} {c : Config} {t : Term} {s : Symbols}
    (h : i.encode.run.run (.ofConfig c) = (.ok t, s)) :
    s.script.declarations = i.reads.map fun a => .const (valueName a.id) a.sort := by
  have hcalls := (Symbols.answers_after c (i.accesses.map Access.valueCall)).declarations
  rw [← i.encode_makes _ t s h, List.map_map] at hcalls
  rw [hcalls, reads]
  refine firstUses_map (fun a b => ?_) i.accesses
  exact valueName_inj

/-- **The reads of an instruction are what its value depends on.** In an instruction over recorded events
they are the accesses it uses, once each and by first use. The constants in its term are theirs, and so are
the declarations in a script that had none; models that agree on these constants give the term one value. -/
theorem reads_are_dependencies {ops : List Recorder.Op} {i : Instr}
    (h : ∀ a, i.Uses a → (Recorder.after ops).Has a) :
    i.ListsUses i.reads ∧
      (∀ s t, (i.encode.run.run s).1 = .ok t → t.DependsOn (i.reads.map fun a => (valueName a.id, a.sort))) ∧
      ∀ c t s, i.encode.run.run (.ofConfig c) = (.ok t, s) →
        s.script.declarations = i.reads.map fun a => .const (valueName a.id) a.sort := by
  have huses : i.ListsUses i.reads := by
    refine reads_listsUses fun a b ha hb hid => ?_
    obtain ⟨e, he, rfl⟩ := h a ha
    obtain ⟨f, hf, rfl⟩ := h b hb
    rw [(Recorder.numbered_after ops).eq_of_id_eq he hf hid]
  refine ⟨huses, fun s t ht => Term.HasConstants.dependsOn ?_, fun c t s => declarations_encode⟩
  rw [i.encode_fst s] at ht
  rw [Term.HasConstants, List.map_map]
  refine (i.term_symbols ht).trans (.of_mem fun u => ?_)
  -- accesses and reads are the same, but for repetitions
  simp only [List.mem_map, mem_accesses, huses.used]
  rfl

end Instr

/-- Records the reads of an array and of an offset into it. -/
def cellOps : List Recorder.Op := [.readArray .short (.ofPtr 1 true), .read .char (.ofPtr 2 true)]

/-- That the offset is below five and the element there negative. The offset is used first and twice. -/
def negativeAtStart : Instr :=
  .nary .and .bool [.binary .lt (.seen offsetRead) (.lit (.char 5)),
    .binary .lt (.deref (.seen cellsRead) (.seen offsetRead)) (.lit (.short 0))]

theorem negativeAtStart_dependencies :
    (∀ a, negativeAtStart.Uses a → (Recorder.after cellOps).Has a) ∧
      negativeAtStart.ListsUses [offsetRead, cellsRead] ∧
      ∃ t s, negativeAtStart.encode.run.run (.ofConfig {}) = (.ok t, s) ∧
        t.DependsOn [("v2", .bitVec 8), ("v1", .array (.bitVec 32) (.bitVec 16))] ∧
        s.script.declarations =
          [.const "v2" (.bitVec 8), .const "v1" (.array (.bitVec 32) (.bitVec 16))] := by
  have hhas : ∀ a, negativeAtStart.Uses a → (Recorder.after cellOps).Has a := by
    have hcells : (Recorder.after cellOps).Has cellsRead := ⟨_, List.mem_cons_self .., rfl⟩
    have hoffset : (Recorder.after cellOps).Has offsetRead :=
      ⟨_, List.mem_cons_of_mem _ (List.mem_cons_self ..), rfl⟩
    intro a ha
    have hmem : a ∈ [offsetRead, cellsRead, offsetRead] := (Instr.mem_accesses _).2 ha
    obtain rfl | rfl | rfl : a = offsetRead ∨ a = cellsRead ∨ a = offsetRead := by simpa using hmem
    · exact hoffset
    · exact hcells
    · exact hoffset
  have hreads : negativeAtStart.reads = [offsetRead, cellsRead] := rfl
  obtain ⟨t, s, hrun⟩ : ∃ t s, negativeAtStart.encode.run.run (.ofConfig {}) = (.ok t, s) := ⟨_, _, rfl⟩
  obtain ⟨huses, hdepends, hdeclared⟩ := Instr.reads_are_dependencies hhas
  rw [hreads] at huses hdepends hdeclared
  exact ⟨hhas, huses, t, s, hrun, hdepends _ t (congrArg Prod.fst hrun), hdeclared _ t s hrun⟩

end Symex.Memory

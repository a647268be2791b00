import Symex.Proofs.WrittenText
import Symex.Smt.Script

/-!
The tokens of names, against the symbols that the language of scripts has. A symbol is a simple one, which
is no reserved word, or a quoted one, whose name has no bar and no backslash. The token of a name is a
symbol of that name, and is read as it whatever comes after it, exactly if the name is writable: not
reserved, and without bars and backslashes. Names are not checked for this, so a name can be written as a
reserved word, and one with bars can end its token and go on as a text of its own.
-/

namespace Symex.Smt

/-! ### Symbols -/

/-- The words that stand for no name: those of terms, of literals, and the names of commands. -/
def reservedWords : List String :=
  ["!", "_", "as", "exists", "forall", "let", "match", "par", "true", "false", "BINARY", "DECIMAL",
    "HEXADECIMAL", "NUMERAL", "STRING", "assert", "check-sat", "check-sat-assuming", "declare-const",
    "declare-datatype", "declare-datatypes", "declare-fun", "declare-sort", "define-fun", "define-fun-rec",
    "define-funs-rec", "define-sort", "echo", "exit", "get-assertions", "get-assignment", "get-info",
    "get-model", "get-option", "get-proof", "get-unsat-assumptions", "get-unsat-core", "get-value", "pop",
    "push", "reset", "reset-assertions", "set-info", "set-logic", "set-option"]

/-- A letter, a digit, or one of the marks that simple symbols can have. -/
def isSimpleChar (c : Char) : Bool :=
  c.isAlphanum ||
    ['~', '!', '@', '$', '%', '^', '&', '*', '_', '-', '+', '=', '<', '>', '.', '?', '/'].contains c

/-- A word that is a symbol as it stands. -/
structure IsSimple (word : List Char) : Prop where
  starts : ∃ c ∈ word.head?, c.isDigit = false
  chars : ∀ c ∈ word, isSimpleChar c = true
  free : String.ofList word ∉ reservedWords

theorem isSimple_iff {word : List Char} :
    (word.head?.any (fun c => !c.isDigit) = true ∧ word.all isSimpleChar = true ∧
      String.ofList word ∉ reservedWords) ↔ IsSimple word := by
  have hstarts : word.head?.any (fun c => !c.isDigit) = true ↔ ∃ c ∈ word.head?, c.isDigit = false := by
    cases word <;> simp
  rw [hstarts, List.all_eq_true]
  exact ⟨fun h => ⟨h.1, h.2.1, h.2.2⟩, fun h => ⟨h.starts, h.chars, h.free⟩⟩

instance (word : List Char) : Decidable (IsSimple word) := decidable_of_iff _ isSimple_iff

/-- The symbols, each with the name that it stands for. -/
inductive Denotes : String → String → Prop
  | simple {name : String} (h : IsSimple name.toList) : Denotes name name
  | quoted {name : String} (h : ∀ c ∈ name.toList, c ≠ '|' ∧ c ≠ '\\') : Denotes ("|" ++ name ++ "|") name

/-- Reads the symbol at the start of a text: the name that it stands for, and the text after it. -/
def readSymbol : List Char → Option (String × List Char)
  | '|' :: cs =>
    let name := cs.takeWhile (· != '|')
    match cs.dropWhile (· != '|') with
    | [] => none
    | _ :: rest => if '\\' ∈ name then none else some (String.ofList name, rest)
  | cs =>
    let word := cs.takeWhile isSimpleChar
    if IsSimple word then some (String.ofList word, cs.dropWhile isSimpleChar) else none

/-! ### Names with a symbol of their own -/

/-- A name that some symbol stands for as names are written. -/
structure IsWritable (name : String) : Prop where
  free : name ∉ reservedWords
  noBar : '|' ∉ name.toList
  noBackslash : '\\' ∉ name.toList

/-- Bars and backslashes are no characters of simple symbols. -/
theorem IsSimple.isWritable {name : String} (h : IsSimple name.toList) : IsWritable name where
  free := by simpa using h.free
  noBar := fun hmem => absurd (h.chars _ hmem) (by decide)
  noBackslash := fun hmem => absurd (h.chars _ hmem) (by decide)

/-- A plain name is a simple symbol unless it is reserved. -/
theorem isSimple_iff_free {name : String} {c : Char} {cs : List Char} (hcs : name.toList = c :: cs)
    (hc : (c.isAlpha || isSymbolMark c) = true)
    (hall : ∀ d ∈ name.toList, (d.isAlphanum || isSymbolMark d) = true) :
    IsSimple name.toList ↔ name ∉ reservedWords := by
  constructor
  · intro h
    exact h.isWritable.free
  · intro h
    exact ⟨⟨c, by rw [hcs]; rfl, not_isDigit_of_start hc⟩, hall, by simpa using h⟩

theorem plain_of_reserved : ∀ name ∈ reservedWords, isPlainSymbol name = true := by decide +kernel

theorem symbol_of_not_plain {name : String} (h : isPlainSymbol name = false) :
    symbol name = "|" ++ name ++ "|" :=
  if_neg (ne_true_of_eq_false h)

theorem denotes_symbol_iff (name : String) : Denotes (symbol name) name ↔ IsWritable name := by
  constructor
  · intro h
    generalize htoken : symbol name = token at h
    cases h with
    | simple h => exact h.isWritable
    | quoted h =>
      refine ⟨fun hres => ?_, fun hmem => (h _ hmem).1 rfl, fun hmem => (h _ hmem).2 rfl⟩
      -- a reserved word is not put between bars
      rw [symbol, if_pos (plain_of_reserved name hres)] at htoken
      have hlength := congrArg String.length htoken
      rw [String.length_append, String.length_append, (by decide : "|".length = 1)] at hlength
      omega
  · intro h
    rcases symbol_cases name with ⟨hsymbol, c, cs, hcs, hc, hall⟩ | ⟨hplain, -⟩
    · rw [hsymbol]
      exact .simple ((isSimple_iff_free hcs hc hall).2 h.free)
    · rw [symbol_of_not_plain hplain]
      exact .quoted fun c hc => ⟨fun hbar => h.noBar (hbar ▸ hc), fun hback => h.noBackslash (hback ▸ hc)⟩

/-! ### Reading names -/

theorem stops_dropWhile (p : Char → Bool) (cs : List Char) : Stops p (cs.dropWhile p) := by
  intro c hc
  have hhead := List.head?_dropWhile_not p cs
  rw [Option.mem_def.1 hc] at hhead
  exact hhead

/-- A run is what is taken from the text. -/
theorem span_run {p : Char → Bool} {a r : List Char} (ha : ∀ c ∈ a, p c = true) (hr : Stops p r) :
    (a ++ r).takeWhile p = a ∧ (a ++ r).dropWhile p = r :=
  run_inj (List.all_eq_true.1 List.all_takeWhile) ha (stops_dropWhile p _) hr
    List.takeWhile_append_dropWhile

theorem readSymbol_word {name : String} {c : Char} {cs rest : List Char} (hcs : name.toList = c :: cs)
    (hc : c ≠ '|') (hall : ∀ d ∈ name.toList, isSimpleChar d = true) (hrest : Stops isSimpleChar rest) :
    readSymbol (name.toList ++ rest) = if IsSimple name.toList then some (name, rest) else none := by
  obtain ⟨htake, hdrop⟩ := span_run hall hrest
  unfold readSymbol
  split
  · next heq =>
    rw [hcs] at heq
    exact absurd (List.cons.inj heq).1 hc
  · simp only [htake, hdrop, String.ofList_toList]

/-- A text between bars is read up to the first bar. -/
theorem readSymbol_quoted {name : String} (rest : List Char) (h : '|' ∉ name.toList) :
    readSymbol ('|' :: (name.toList ++ '|' :: rest)) =
      if '\\' ∈ name.toList then none else some (name, rest) := by
  have hall : ∀ c ∈ name.toList, (c != '|') = true := by
    intro c hc
    simpa using fun hbar : c = '|' => h (hbar ▸ hc)
  obtain ⟨htake, hdrop⟩ := span_run hall (by simp : Stops (· != '|') ('|' :: rest))
  simp only [readSymbol, htake, hdrop, String.ofList_toList]

theorem not_mem_of_readSymbol_quoted {name : String} {cs rest : List Char}
    (h : readSymbol ('|' :: cs) = some (name, rest)) : '|' ∉ name.toList := by
  intro hmem
  simp only [readSymbol] at h
  split at h
  · cases h
  · split at h
    · cases h
    · cases h
      rw [String.toList_ofList] at hmem
      exact absurd (List.all_eq_true.1 List.all_takeWhile _ hmem) (by decide)

theorem readSymbol_symbol_iff (name : String) {rest : List Char} (hrest : Stops isSimpleChar rest) :
    readSymbol ((symbol name).toList ++ rest) = some (name, rest) ↔ IsWritable name := by
  rcases symbol_cases name with ⟨hsymbol, c, cs, hcs, hc, hall⟩ | ⟨hplain, hquoted⟩
  · have hbar : c ≠ '|' := by
      rintro rfl
      exact absurd hc (by decide)
    rw [hsymbol, readSymbol_word hcs hbar hall hrest]
    constructor
    · intro h
      split at h
      · next hsimple => exact hsimple.isWritable
      · cases h
    · intro h
      rw [if_pos ((isSimple_iff_free hcs hc hall).2 h.free)]
  · rw [hquoted, List.cons_append, List.append_assoc]
    constructor
    · intro h
      have hbar := not_mem_of_readSymbol_quoted h
      rw [List.singleton_append, readSymbol_quoted rest hbar] at h
      refine ⟨fun hres => ?_, hbar, fun hback => ?_⟩
      · rw [plain_of_reserved name hres] at hplain
        cases hplain
      · rw [if_pos hback] at h
        cases h
    · intro h
      rw [List.singleton_append, readSymbol_quoted rest h.noBar, if_neg h.noBackslash]

/-- **The token of a name is a symbol of that name, and is read as it whatever text comes after it, exactly
if the name is writable.** -/
theorem symbol_denotes_iff_writable (name : String) :
    (Denotes (symbol name) name ↔ IsWritable name) ∧
      ∀ rest, Stops isSimpleChar rest →
        (readSymbol ((symbol name).toList ++ rest) = some (name, rest) ↔ IsWritable name) :=
  ⟨denotes_symbol_iff name, fun _ hrest => readSymbol_symbol_iff name hrest⟩

/-- A name that looks like the end of a command and another one after it is read as a name. -/
theorem commandName_denotes :
    IsWritable "x Int) (assert false" ∧ Stops isSimpleChar " Int)".toList ∧
      Denotes (symbol "x Int) (assert false") "x Int) (assert false" ∧
      readSymbol ((symbol "x Int) (assert false").toList ++ " Int)".toList) =
        some ("x Int) (assert false", " Int)".toList) := by
  have hname : IsWritable "x Int) (assert false" := ⟨by decide, by decide, by decide⟩
  have hrest : Stops isSimpleChar " Int)".toList := stops_cons.2 rfl
  obtain ⟨hdenotes, hread⟩ := symbol_denotes_iff_writable "x Int) (assert false"
  exact ⟨hname, hrest, hdenotes.2 hname, (hread _ hrest).2 hname⟩

/-- A script that declares integers. -/
def integers (names : List String) : Script :=
  { logic := "ALL", declarations := names.map fun name => .const name .int }

/-- The token of `let` is the reserved word, and a name with bars can declare two constants. -/
theorem barName_declares_two :
    ¬ Denotes (symbol "let") "let" ∧
      ¬ Denotes (symbol "0| Int)\n(declare-const |1") "0| Int)\n(declare-const |1" ∧
      (integers ["0| Int)\n(declare-const |1"]).text = (integers ["0", "1"]).text := by
  refine ⟨fun h => ?_, fun h => ?_, by decide⟩
  · exact absurd ((denotes_symbol_iff "let").1 h).free (by decide)
  · exact absurd ((denotes_symbol_iff _).1 h).noBar (by decide)

end Symex.Smt

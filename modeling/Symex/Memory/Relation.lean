import Symex.Memory.Event
import Symex.Table

/-!
The relation of shared events: each once, by ascending number. Its atoms are the coarsest zones that
no event touches in part: two pointers are in one atom when the same events touch them.
-/

namespace Symex.Memory

/-- Puts an event in its place by number; one of the same number that is there already stays. -/
def insertEvent (e : Event) : List Event → List Event
  | [] => [e]
  | f :: fs =>
    if e.id < f.id then e :: f :: fs
    else if e.id = f.id then f :: fs
    else f :: insertEvent e fs

theorem mem_of_mem_insertEvent {x e : Event} {l : List Event} (h : x ∈ insertEvent e l) :
    x = e ∨ x ∈ l := by
  induction l with
  | nil => simpa [insertEvent] using h
  | cons f fs ih =>
    unfold insertEvent at h
    split at h
    · simpa using h
    · split at h
      · exact Or.inr h
      · rcases List.mem_cons.1 h with rfl | h
        · simp
        · rcases ih h with rfl | h <;> simp_all

theorem pairwise_insertEvent {e : Event} {l : List Event} (h : l.Pairwise (·.id < ·.id)) :
    (insertEvent e l).Pairwise (·.id < ·.id) := by
  induction l with
  | nil => simp [insertEvent]
  | cons f fs ih =>
    obtain ⟨hf, hfs⟩ := List.pairwise_cons.1 h
    unfold insertEvent
    split
    · next hlt =>
      refine List.pairwise_cons.2 ⟨fun x hx => ?_, h⟩
      rcases List.mem_cons.1 hx with rfl | hx
      · exact hlt
      · exact Nat.lt_trans hlt (hf x hx)
    · split
      · exact h
      · refine List.pairwise_cons.2 ⟨fun x hx => ?_, ih hfs⟩
        rcases mem_of_mem_insertEvent hx with rfl | hx
        · omega
        · exact hf x hx

/-- Puts a number in its place under a key. -/
def file {κ : Type} [Ord κ] (k : κ) (n : Nat) (t : Table κ (List Nat)) : Table κ (List Nat) :=
  t.insert k (insertAscending n ((t.find? k).getD []))

/-- Shared events by ascending number. -/
structure Relation where
  events : List Event
  ascending : events.Pairwise (·.id < ·.id)
  allShared : ∀ e ∈ events, e.addr.shared = true

namespace Relation

def empty : Relation := ⟨[], .nil, by simp⟩

/-- Adds an event unless it is not shared or its number is taken. -/
def insert (r : Relation) (e : Event) : Relation :=
  if h : e.addr.shared = true then
    ⟨insertEvent e r.events, pairwise_insertEvent r.ascending, fun x hx => by
      rcases mem_of_mem_insertEvent hx with rfl | hx
      · exact h
      · exact r.allShared x hx⟩
  else r

def ofEvents (es : List Event) : Relation := es.foldl insert empty

def reads (r : Relation) : List Event := r.events.filter (·.isRead)

def writes (r : Relation) : List Event := r.events.filter (·.isWrite)

/-- The events that touch a zone and pass a test. -/
def find (r : Relation) (z : Zone) (test : Event → Bool) : List Event :=
  r.events.filter fun e => e.zone.overlaps z && test e

/-- The reads and the writes that touch a zone. -/
def partition (r : Relation) (z : Zone) : List Event × List Event :=
  (r.find z (·.isRead), r.find z (·.isWrite))

/-- Under every pointer that is touched, the numbers of the events that touch it. -/
def touchers (r : Relation) : Table Nat (List Nat) :=
  r.events.foldl (fun t e => e.zone.ptrs.foldl (fun t p => file p e.id t) t) []

/-- Under the numbers of events, the pointers that just these events touch. -/
def groups (r : Relation) : Table (List Nat) (List Nat) :=
  r.touchers.foldl (fun t e => file e.2 e.1 t) []

/-- The atoms in ascending order: the pointers that have their events in common. -/
def atoms (r : Relation) : List Zone :=
  Zone.sort (r.groups.map fun e => .ofList e.2)

end Relation

/-- The relation of everything recorded. -/
def Recorder.relation (r : Recorder) : Relation := .ofEvents r.events

end Symex.Memory

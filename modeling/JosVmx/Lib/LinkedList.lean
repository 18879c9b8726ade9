import Mathlib.Logic.Function.Basic
import Mathlib.Data.List.Nodup

/-!
# Intrusive doubly linked lists

The list discipline of the BSD queue macros. Every element carries a pointer to its
successor and a pointer to the pointer that refers to it, which is either the list
head or the successor field of another element. An element can therefore be unlinked
without walking the list.

The element type is arbitrary. `Represents s l` says that the pointers of `s` form
exactly the list `l`; a representing store is acyclic because the successor pointers
determine the rest of the list, so an element met twice would start two suffixes of
different lengths.

## Main results

* `Represents.nodup` — a represented list has no duplicates
* `Represents.insertHead` — inserting an absent element puts it in front
* `Represents.remove_head` — unlinking the first element leaves the tail
-/

namespace JosVmx.Lib

/-- A place that holds a pointer to an element: the list head, or the successor
field of an element. `null` is the null pointer. -/
inductive Cell (α : Type*)
  | null
  | head
  | next (a : α)
  deriving DecidableEq, Repr

/-- The link embedded in an element. -/
structure Link (α : Type*) where
  /-- next element -/
  next : Option α
  /-- pointer to the pointer to this element -/
  prev : Cell α
  deriving DecidableEq, Repr

/-- A list head together with the links of all elements. -/
structure ListStore (α : Type*) where
  /-- first element -/
  first : Option α
  link : α → Link α

namespace ListStore

variable {α : Type*}

/-! ### The list a store represents -/

/-- Starting from the pointer `p` held in cell `c`, the links run through `l`. -/
def Segment (link : α → Link α) : Cell α → Option α → List α → Prop
  | _, p, [] => p = none
  | c, p, a :: l => p = some a ∧ (link a).prev = c ∧ Segment link (.next a) (link a).next l

/-- The head and the links of the store form exactly the list `l`. -/
def Represents (s : ListStore α) (l : List α) : Prop := Segment s.link .head s.first l

/-- A segment only depends on the links of its elements. -/
theorem Segment.congr {link link' : α → Link α} {c : Cell α} {p : Option α} {l : List α}
    (h : Segment link c p l) (agree : ∀ a ∈ l, link' a = link a) : Segment link' c p l := by
  induction l generalizing c p with
  | nil => exact h
  | cons a l ih =>
    obtain ⟨hp, hprev, hrest⟩ := h
    have ha := agree a (List.mem_cons_self ..)
    refine ⟨hp, by rw [ha]; exact hprev, ?_⟩
    rw [ha]
    exact ih hrest fun b hb => agree b (List.mem_cons_of_mem _ hb)

/-- Successor pointers determine the rest of a list. -/
theorem Segment.unique {link : α → Link α} {c c' : Cell α} {p : Option α} {l l' : List α}
    (h : Segment link c p l) (h' : Segment link c' p l') : l = l' := by
  induction l generalizing c c' p l' with
  | nil =>
    cases l' with
    | nil => rfl
    | cons b l' => exact absurd (h.symm.trans h'.1) (by simp)
  | cons a l ih =>
    cases l' with
    | nil => exact absurd (h'.symm.trans h.1) (by simp)
    | cons b l' =>
      obtain rfl := Option.some_inj.mp (h.1.symm.trans h'.1)
      rw [ih h.2.2 h'.2.2]

/-- Each element of a segment starts a shorter one. -/
theorem Segment.exists_suffix {link : α → Link α} {c : Cell α} {p : Option α} {l : List α}
    (h : Segment link c p l) {a : α} (ha : a ∈ l) :
    ∃ l', Segment link (.next a) (link a).next l' ∧ l'.length < l.length := by
  induction l generalizing c p with
  | nil => exact absurd ha List.not_mem_nil
  | cons b l ih =>
    rcases List.mem_cons.mp ha with rfl | ha
    · exact ⟨l, h.2.2, Nat.lt_succ_self _⟩
    · obtain ⟨l', hl', hlt⟩ := ih h.2.2 ha
      exact ⟨l', hl', Nat.lt_succ_of_lt hlt⟩

theorem Segment.nodup {link : α → Link α} {c : Cell α} {p : Option α} {l : List α}
    (h : Segment link c p l) : l.Nodup := by
  induction l generalizing c p with
  | nil => exact List.nodup_nil
  | cons a l ih =>
    refine List.nodup_cons.mpr ⟨fun ha => ?_, ih h.2.2⟩
    obtain ⟨l', hl', hlt⟩ := h.2.2.exists_suffix ha
    exact absurd (congrArg List.length (h.2.2.unique hl')) (Nat.ne_of_gt hlt)

variable {s : ListStore α} {a : α} {l : List α}

/-- A represented list has no duplicates, so walking it never comes back. -/
theorem Represents.nodup (h : s.Represents l) : l.Nodup := Segment.nodup h

theorem Represents.unique {l' : List α} (h : s.Represents l) (h' : s.Represents l') : l = l' :=
  Segment.unique h h'

theorem Represents.first_eq (h : s.Represents l) : s.first = l.head? := by
  cases l with
  | nil => exact h
  | cons a l => exact h.1

/-- The list survives any change to the links of other elements. -/
theorem Represents.congr {s' : ListStore α} (h : s.Represents l) (hfirst : s'.first = s.first)
    (agree : ∀ b ∈ l, s'.link b = s.link b) : s'.Represents l := by
  rw [Represents, hfirst]
  exact Segment.congr h agree

/-- A nonempty segment moves to another cell by changing the back pointer of its
first element. -/
private theorem Segment.move {link link' : α → Link α} {c c' : Cell α} {p : Option α}
    (h : Segment link c p l) (hhead : ∀ b, l.head? = some b →
      link' b = { link b with prev := c' }) (hrest : ∀ b ∈ l.tail, link' b = link b) :
    Segment link' c' p l := by
  cases l with
  | nil => exact h
  | cons b l =>
    have hb := hhead b rfl
    refine ⟨h.1, by rw [hb], ?_⟩
    rw [hb]
    exact Segment.congr h.2.2 hrest

/-! ### The operations -/

/-- Reset the list named by the head to the empty list. -/
def init (s : ListStore α) : ListStore α := { s with first := none }

theorem represents_init : s.init.Represents [] := rfl

variable [DecidableEq α]

/-- Store an element pointer through a cell; `none` when the cell is null. -/
def write (s : ListStore α) (c : Cell α) (v : Option α) : Option (ListStore α) :=
  match c with
  | .null => none
  | .head => some { s with first := v }
  | .next a => some { s with link := Function.update s.link a { s.link a with next := v } }

/-- Point the back pointer of an element, if there is one, at a cell. -/
def setPrev (s : ListStore α) (a : Option α) (c : Cell α) : ListStore α :=
  match a with
  | none => s
  | some a => { s with link := Function.update s.link a { s.link a with prev := c } }

/-- Insert an element at the head of the list. -/
def insertHead (s : ListStore α) (a : α) : ListStore α :=
  let s₁ : ListStore α :=
    { s with link := Function.update s.link a { s.link a with next := s.first } }
  let s₂ := s₁.setPrev s.first (.next a)
  let s₃ : ListStore α := { s₂ with first := some a }
  s₃.setPrev (some a) .head

/-- Remove an element from the list; `none` when its back pointer is null. -/
def remove (s : ListStore α) (a : α) : Option (ListStore α) :=
  (s.setPrev (s.link a).next (s.link a).prev).write (s.link a).prev (s.link a).next

/-- Links of elements other than the inserted one and the old first one are kept. -/
theorem insertHead_link_of_ne {b : α} (hb : b ≠ a) (hfirst : s.first ≠ some b) :
    (s.insertHead a).link b = s.link b := by
  cases hs : s.first with
  | none => simp [insertHead, setPrev, hs, hb]
  | some c =>
    have hbc : b ≠ c := fun h => hfirst (by rw [hs, h])
    simp [insertHead, setPrev, hs, hb, hbc]

/-- Inserting an absent element puts it in front. -/
theorem Represents.insertHead (h : s.Represents l) (ha : a ∉ l) :
    (s.insertHead a).Represents (a :: l) := by
  have hne : ∀ b, l.head? = some b → b ≠ a := by
    -- the old first element is in the list, and `a` is not
    rintro b hb rfl
    exact ha (List.mem_of_mem_head? hb)
  have hnext : ((s.insertHead a).link a).next = s.first := by
    cases hs : s.first with
    | none => simp [ListStore.insertHead, setPrev, hs]
    | some c =>
      have hca : c ≠ a := hne c (h.first_eq.symm.trans hs)
      simp [ListStore.insertHead, setPrev, hs, hca.symm]
  have hprev : ((s.insertHead a).link a).prev = .head := by
    cases hs : s.first <;> simp [ListStore.insertHead, setPrev, hs]
  have hfirst : (s.insertHead a).first = some a := by
    cases hs : s.first <;> simp [ListStore.insertHead, setPrev, hs]
  refine ⟨hfirst, hprev, ?_⟩
  rw [hnext]
  refine Segment.move (c := .head) h ?_ ?_
  · intro b hb
    have hs : s.first = some b := h.first_eq.trans hb
    simp [ListStore.insertHead, setPrev, hs, hne b hb]
  · intro b hb
    have hbl : b ∈ l := List.mem_of_mem_tail hb
    refine insertHead_link_of_ne (fun hba => ha (hba ▸ hbl)) fun hs => ?_
    -- the old first element does not occur again behind itself
    cases l with
    | nil => exact absurd hb List.not_mem_nil
    | cons c l =>
      obtain rfl := Option.some_inj.mp (h.1.symm.trans hs)
      exact (List.nodup_cons.mp h.nodup).1 hb

/-- Unlinking the first element of a list leaves its tail, and only the links of the
next element change. -/
theorem Represents.remove_head (h : s.Represents (a :: l)) :
    ∃ s', s.remove a = some s' ∧ s'.Represents l ∧ s'.first = (s.link a).next ∧
      ∀ b, l.head? ≠ some b → s'.link b = s.link b := by
  obtain ⟨-, hprev, hrest⟩ := h
  -- the second element, if any, becomes the first
  have hhead : (s.link a).next = l.head? := by
    cases l with
    | nil => exact hrest
    | cons b l => exact hrest.1
  refine ⟨{ s.setPrev (s.link a).next .head with first := (s.link a).next }, ?_, ?_, rfl, ?_⟩
  · rw [remove, hprev]
    rfl
  · refine Segment.move (c := .next a) hrest ?_ ?_
    · intro b hb
      simp [setPrev, hhead, hb]
    · intro b hb
      cases l with
      | nil => exact absurd hb List.not_mem_nil
      | cons c l =>
        have hbc : b ≠ c := by
          rintro rfl
          exact (List.nodup_cons.mp (Segment.nodup hrest)).1 hb
        simp [setPrev, hhead, hbc]
  · intro b hb
    cases l with
    | nil => simp [setPrev, hhead]
    | cons c l =>
      have hbc : b ≠ c := by
        rintro rfl
        exact hb rfl
      simp [setPrev, hhead, hbc]

end ListStore

end JosVmx.Lib

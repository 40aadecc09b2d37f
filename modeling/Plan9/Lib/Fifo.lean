import Mathlib.Data.List.Nodup
import Plan9.Lib.Linked

/-!
# Queues threaded through their elements

A singly linked list with a pointer to its first and one to its last element, whose links
stand in the elements. Elements are put behind the last one (`Plan9.Lib.Fifo.push`) or
anywhere (`Plan9.Lib.Fifo.insert`), and taken out at the front (`Plan9.Lib.Fifo.pop`) or
anywhere (`Plan9.Lib.Fifo.erase`), once a walk with a trailing pointer has found the place
(`Plan9.Lib.Fifo.seek_eq`). The pointer to the last element may be left as it is while the
queue is emptied (`Plan9.Lib.Threaded`): it is of no use when the queue is empty.
-/

namespace Plan9

namespace Lib

open List Option

/-- The pointers to the first and the last element. -/
structure Ends (ι : Type*) where
  head : Option ι
  tail : Option ι
deriving DecidableEq

variable {ι : Type*} {next next' : ι → Option ι} {q q' : Ends ι} {l l' : List ι} {x : ι}

/-- The elements are those of `l`; the pointer to the last one need not be right if there
is none. -/
structure Threaded (next : ι → Option ι) (q : Ends ι) (l : List ι) : Prop where
  linked : Linked next q.head l none
  nodup : l.Nodup
  tail : l ≠ [] → q.tail = l.getLast?

/-- **Queues**: the elements of `l`, in order. -/
structure Fifo (next : ι → Option ι) (q : Ends ι) (l : List ι) : Prop where
  linked : Linked next q.head l none
  nodup : l.Nodup
  tail : q.tail = l.getLast?

/-- The walk to the first element that `stop` picks, at most `k` elements long: the element before
it, and itself. `last` is the element before the first one. -/
def seek (next : ι → Option ι) (stop : ι → Bool) (last : Option ι) :
    ℕ → Option ι → Option ι × Option ι
  | 0, p => (last, p)
  | _ + 1, none => (last, none)
  | k + 1, some p => if stop p then (last, some p) else seek next stop (some p) k (next p)

theorem linked_seek {a : Option ι} {k : ℕ} (stop : ι → Bool) (last : Option ι)
    (h : Linked next a l none)
    (hk : l.length ≤ k) : ∃ l₁ l₂, l = l₁ ++ l₂ ∧ (∀ y ∈ l₁, stop y = false) ∧
      (∀ y ∈ l₂.head?, stop y = true) ∧
      seek next stop last k a = (l₁.getLast?.or last, l₂.head?) := by
  induction l generalizing a last k with
  | nil =>
    obtain rfl : a = none := h
    refine ⟨[], [], rfl, fun y hy => ?_, fun y hy => ?_, ?_⟩
    · cases hy
    · cases hy
    · cases k <;> rfl
  | cons x l ih =>
    obtain ⟨rfl, hl⟩ := h
    obtain _ | k := k
    · exact absurd hk (Nat.not_succ_le_zero _)
    · by_cases hstop : stop x = true
      · refine ⟨[], x :: l, rfl, fun y hy => ?_, fun y hy => ?_, ?_⟩
        · cases hy
        · cases hy
          exact hstop
        · rw [seek, if_pos hstop]
          rfl
      · obtain ⟨l₁, l₂, rfl, hpass, hhit, heq⟩ := ih (some x) hl (Nat.le_of_succ_le_succ hk)
        refine ⟨x :: l₁, l₂, rfl, fun y hy => ?_, hhit, ?_⟩
        · rcases mem_cons.1 hy with rfl | hy
          · exact Bool.eq_false_iff.2 hstop
          · exact hpass y hy
        · rw [seek, if_neg hstop, heq]
          cases l₁ with
          | nil => rfl
          | cons y l₁ =>
            rw [List.getLast?_cons_cons]
            have hsome : ((y :: l₁).getLast?).isSome := by simp
            rw [or_of_isSome hsome, or_of_isSome hsome]

/-- **The end of a list is replaced**, behind the elements of `l`. -/
theorem Linked.splice {a head head' : Option ι} {l r r' : List ι}
    (h : Linked next head (l ++ r) none) (hnodup : l.Nodup) (hrest : Linked next' a r' none)
    (hlast : ∀ t ∈ l.getLast?, next' t = a) (hnext : ∀ y ∈ l, y ∉ l.getLast? → next' y = next y)
    (hhead : head' = if l = [] then a else head) : Linked next' head' (l ++ r') none := by
  rw [hhead]
  rcases l.eq_nil_or_concat' with rfl | ⟨l, t, rfl⟩
  · rw [if_pos rfl]
    exact hrest
  · rw [if_neg (append_ne_nil_of_right_ne_nil l (cons_ne_nil t []))]
    rw [List.getLast?_concat] at hlast hnext
    obtain ⟨b, hl, -⟩ := linked_append.1 h
    refine linked_append.2 ⟨a, linked_concat.2 ⟨?_, hlast t rfl⟩, hrest⟩
    refine (linked_concat.1 hl).1.congr fun y hy => hnext y (mem_append_left _ hy) fun hin => ?_
    cases hin
    exact (nodup_append.1 hnodup).2.2 t hy t mem_cons_self rfl

namespace Threaded

theorem head_eq (h : Threaded next q l) : q.head = l.head? := h.linked.head_eq

/-- The links of other elements do not matter. -/
theorem congr (h : Threaded next q l) (hnext : ∀ y ∈ l, next' y = next y) : Threaded next' q l :=
  ⟨h.linked.congr hnext, h.nodup, h.tail⟩

/-- Going on to the second element. -/
theorem pop (h : Threaded next q (x :: l)) (hhead : q'.head = next x) (htail : q'.tail = q.tail) :
    Threaded next q' l where
  linked := by
    rw [hhead]
    exact h.linked.2
  nodup := (nodup_cons.1 h.nodup).2
  tail hne := by
    rw [htail, h.tail (cons_ne_nil x l), List.getLast?_cons_of_ne_nil hne]

/-- The pointer to the last element is right, or there is no element and it is none. -/
theorem fifo (h : Threaded next q l) (htail : q.head = none → q.tail = none) : Fifo next q l where
  linked := h.linked
  nodup := h.nodup
  tail := by
    cases l with
    | nil => exact htail h.linked
    | cons x l => exact h.tail (cons_ne_nil x l)

end Threaded

namespace Fifo

theorem threaded (h : Fifo next q l) : Threaded next q l := ⟨h.linked, h.nodup, fun _ => h.tail⟩

theorem head_eq (h : Fifo next q l) : q.head = l.head? := h.linked.head_eq

theorem nil : Fifo next ⟨none, none⟩ [] := ⟨rfl, nodup_nil, rfl⟩

/-- The links of other elements do not matter. -/
theorem congr (h : Fifo next q l) (hnext : ∀ y ∈ l, next' y = next y) : Fifo next' q l :=
  ⟨h.linked.congr hnext, h.nodup, h.tail⟩

/-- **An element goes behind the last one.** -/
theorem push (h : Fifo next q l) (hx : x ∉ l) (hself : next' x = none)
    (hlast : ∀ t, q.tail = some t → next' t = some x)
    (hnext : ∀ y ∈ l, q.tail ≠ some y → next' y = next y)
    (hhead : q'.head = if q.tail = none then some x else q.head) (htail : q'.tail = some x) :
    Fifo next' q' (l ++ [x]) where
  nodup := by
    rw [nodup_append]
    refine ⟨h.nodup, nodup_singleton x, ?_⟩
    rintro y hy _ hy' rfl
    rw [mem_singleton.1 hy'] at hy
    exact hx hy
  tail := by
    rw [htail, List.getLast?_concat]
  linked := by
    have hl : Linked next q.head (l ++ []) none := by
      rw [append_nil]
      exact h.linked
    refine hl.splice h.nodup ⟨rfl, hself⟩ (fun t ht => hlast t (h.tail.trans ht))
      (fun y hy hno => hnext y hy fun heq => hno (h.tail.symm.trans heq)) ?_
    rw [hhead, h.tail]
    simp only [List.getLast?_eq_none_iff]

/-- **The first element is taken out.** -/
theorem pop (h : Fifo next q (x :: l)) (hhead : q'.head = next x)
    (htail : q'.tail = if next x = none then none else q.tail) : Fifo next q' l := by
  refine ⟨?_, (nodup_cons.1 h.nodup).2, ?_⟩
  · rw [hhead]
    exact h.linked.2
  · have hnext : next x = l.head? := h.linked.2.head_eq
    rw [htail, hnext]
    cases l with
    | nil => rfl
    | cons y l =>
      rw [if_neg (by exact some_ne_none y), h.tail, List.getLast?_cons_cons]

/-- **An element goes between two parts of the queue.** -/
theorem insert {l' : List ι} (h : Fifo next q (l ++ l')) (hx : x ∉ l ++ l')
    (hself : next' x = l'.head?) (hlast : ∀ t ∈ l.getLast?, next' t = some x)
    (hnext : ∀ y ∈ l ++ l', y ∉ l.getLast? → next' y = next y)
    (hhead : q'.head = if l = [] then some x else q.head)
    (htail : q'.tail = if l' = [] then some x else q.tail) : Fifo next' q' (l ++ x :: l') := by
  obtain ⟨b, -, hl'⟩ := linked_append.1 h.linked
  obtain ⟨hnodup, -, hdisj⟩ := nodup_append.1 h.nodup
  have hrest : Linked next' (some x) (x :: l') none := by
    refine ⟨rfl, ?_⟩
    rw [hself, ← hl'.head_eq]
    refine hl'.congr fun y hy => hnext y (mem_append_right _ hy) fun hin => ?_
    exact hdisj y (List.mem_of_getLast? hin) y hy rfl
  refine ⟨h.linked.splice hnodup hrest hlast (fun y hy => hnext y (mem_append_left _ hy)) hhead,
    ?_, ?_⟩
  · rw [nodup_middle]
    exact nodup_cons.2 ⟨hx, h.nodup⟩
  · rw [htail]
    cases l' with
    | nil => rw [if_pos rfl, List.getLast?_concat]
    | cons y l' =>
      rw [if_neg (cons_ne_nil y l'), h.tail, List.getLast?_append_of_ne_nil _ (by simp),
        List.getLast?_append_of_ne_nil _ (by simp), List.getLast?_cons_cons]

/-- **An element is taken out from between two parts of the queue.** -/
theorem erase {l' : List ι} (h : Fifo next q (l ++ x :: l'))
    (hlast : ∀ t ∈ l.getLast?, next' t = next x)
    (hnext : ∀ y ∈ l ++ l', y ∉ l.getLast? → next' y = next y)
    (hhead : q'.head = if l = [] then next x else q.head)
    (htail : q'.tail = if next x = none then l.getLast? else q.tail) : Fifo next' q' (l ++ l') := by
  obtain ⟨b, -, rfl, hl'⟩ := linked_append.1 h.linked
  have hall := h.nodup
  rw [nodup_middle, nodup_cons] at hall
  obtain ⟨hnodup, -, hdisj⟩ := nodup_append.1 hall.2
  have hrest : Linked next' (next x) l' none := by
    refine hl'.congr fun y hy => hnext y (mem_append_right _ hy) fun hin => ?_
    exact hdisj y (List.mem_of_getLast? hin) y hy rfl
  refine ⟨h.linked.splice hnodup hrest hlast (fun y hy => hnext y (mem_append_left _ hy)) hhead,
    hall.2, ?_⟩
  rw [htail, hl'.head_eq]
  cases l' with
  | nil => rw [List.head?_nil, if_pos rfl, append_nil]
  | cons y l' =>
    rw [List.head?_cons, if_neg (some_ne_none y), h.tail,
      List.getLast?_append_of_ne_nil _ (by simp), List.getLast?_append_of_ne_nil _ (by simp),
      List.getLast?_cons_cons]

/-- **The walk splits the queue** before the first element that `stop` picks. -/
theorem seek_eq {k : ℕ} (h : Fifo next q l) (stop : ι → Bool) (hk : l.length ≤ k) :
    ∃ l₁ l₂, l = l₁ ++ l₂ ∧ (∀ y ∈ l₁, stop y = false) ∧ (∀ y ∈ l₂.head?, stop y = true) ∧
      seek next stop none k q.head = (l₁.getLast?, l₂.head?) := by
  obtain ⟨l₁, l₂, hl, hpass, hhit, heq⟩ := linked_seek stop none h.linked hk
  refine ⟨l₁, l₂, hl, hpass, hhit, ?_⟩
  rw [heq, or_none]

end Fifo

end Lib

end Plan9

/-
  Andri.Lib.Channel

  An unreliable channel: what is sent may be lost, delayed, reordered and delivered
  more than once, but nothing is made up.  A delivery names the position of its
  message in the order sent, so that loss, order and repetition are properties of
  the list of positions.
-/
import Mathlib.Data.List.Nodup

namespace Andri.Lib

variable {α β : Type*} {sent msgs xs ys : List α} {arrivals : List ℕ} {a : α}

/-- The messages that arrive when the positions `arrivals` of `sent` are delivered. -/
def Arrived (sent : List α) (arrivals : List ℕ) (msgs : List α) : Prop :=
  arrivals.map (fun i => sent[i]?) = msgs.map some

theorem Arrived.nil (sent : List α) : Arrived sent [] [] := rfl

/-- A position delivered is one that has been sent. -/
theorem Arrived.lt_length (h : Arrived sent arrivals msgs) {i : ℕ} (hi : i ∈ arrivals) :
    i < sent.length := by
  have hmem : sent[i]? ∈ msgs.map some := by
    rw [← h]
    exact List.mem_map_of_mem hi
  obtain ⟨a, -, ha⟩ := List.mem_map.mp hmem
  exact (List.getElem?_eq_some_iff.mp ha.symm).1

/-- Sending more changes nothing about what has arrived. -/
theorem Arrived.send (h : Arrived sent arrivals msgs) (more : List α) :
    Arrived (sent ++ more) arrivals msgs := by
  unfold Arrived
  rw [← h]
  apply List.map_congr_left
  intro i hi
  exact List.getElem?_append_left (h.lt_length hi)

theorem Arrived.deliver (h : Arrived sent arrivals msgs) {i : ℕ} (hi : sent[i]? = some a) :
    Arrived sent (arrivals ++ [i]) (msgs ++ [a]) := by
  unfold Arrived
  rw [List.map_append, List.map_append, h, List.map_singleton, List.map_singleton, hi]

/-- What has been taken off the channel arrived first. -/
theorem Arrived.left (h : Arrived sent arrivals (xs ++ ys)) :
    Arrived sent (arrivals.take xs.length) xs := by
  unfold Arrived
  rw [List.map_take, h, List.map_append]
  exact List.take_left' (List.length_map _)

/-- Nothing is made up. -/
theorem Arrived.mem (h : Arrived sent arrivals msgs) (ha : a ∈ msgs) : a ∈ sent := by
  have hmem : some a ∈ arrivals.map fun i => sent[i]? := by
    rw [h]
    exact List.mem_map_of_mem ha
  obtain ⟨i, -, hi⟩ := List.mem_map.mp hmem
  exact List.mem_of_getElem? hi

theorem Arrived.map (h : Arrived sent arrivals msgs) (f : α → β) :
    Arrived (sent.map f) arrivals (msgs.map f) := by
  unfold Arrived
  have hmap := congrArg (List.map (Option.map f)) h
  rw [List.map_map, List.map_map] at hmap
  rw [List.map_map, show (some ∘ f : α → Option β) = Option.map f ∘ some from rfl, ← hmap]
  apply List.map_congr_left
  intro i _
  exact List.getElem?_map

/-- If no two messages sent have the same key, two that arrived have it only if a position was
    delivered twice. -/
theorem Arrived.nodup_map (h : Arrived sent arrivals msgs) {key : α → β}
    (hkey : (sent.map key).Nodup) (honce : arrivals.Nodup) : (msgs.map key).Nodup := by
  have heq : arrivals.map (fun i => (sent.map key)[i]?) = (msgs.map key).map some := h.map key
  refine List.Nodup.of_map some ?_
  rw [← heq]
  apply honce.map_on
  intro i hi j _ hij
  have hlt : i < (sent.map key).length := by simpa using h.lt_length hi
  exact (List.getElem?_inj hlt hkey).mp hij

end Andri.Lib

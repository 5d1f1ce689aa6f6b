import SyeLabs.Library.FirstSeen
import SyeLabs.Library.Recency

/-!
# The recency list

The pages in a list, the one accessed last in front. A least recently used cache of size
`k` holds the first `k` of them, so whether an access hits depends on how many pages were
accessed since the last access to the same page.
-/

namespace SyeLabs

variable {α : Type*} [DecidableEq α]

theorem firstSeen_cons (x : α) (xs : List α) : firstSeen (x :: xs) = x :: (firstSeen xs).erase x := by
  induction xs using List.reverseRecOn with
  | nil => rfl
  | append_singleton xs y ih =>
    rw [← List.cons_append, firstSeen_snoc, firstSeen_snoc, ih]
    by_cases hy : y ∈ xs
    · rw [if_pos (List.mem_cons_of_mem x hy), if_pos hy]
    · rw [if_neg hy]
      by_cases hyx : y = x
      · have hseen : x ∉ firstSeen xs := fun h => hy (hyx ▸ mem_firstSeen.mp h)
        rw [hyx, if_pos (List.mem_cons_self ..), List.erase_of_not_mem hseen,
          List.erase_append_right _ hseen]
        simp
      · rw [if_neg fun h => (List.mem_cons.mp h).elim hyx hy]
        by_cases hx : x ∈ firstSeen xs
        · rw [List.erase_append_left _ hx, List.cons_append]
        · rw [List.erase_append_right _ hx, List.erase_of_not_mem hx,
            List.erase_of_not_mem fun h => hyx (List.mem_singleton.mp h).symm, List.cons_append]

theorem firstSeen_of_nodup {xs : List α} (h : xs.Nodup) : firstSeen xs = xs := by
  rw [firstSeen, List.dedup_eq_self.mpr (List.nodup_reverse.mpr h), List.reverse_reverse]

theorem firstSeen_length (xs : List α) : (firstSeen xs).length = xs.toFinset.card := by
  rw [firstSeen, List.length_reverse, ← List.card_toFinset, List.toFinset_reverse]

/-- The place of the first occurrence tells how many others come before it. -/
theorem mem_take_firstSeen {xs ys : List α} {x : α} {k : ℕ} (hx : x ∉ xs) :
    x ∈ (firstSeen (xs ++ x :: ys)).take k ↔ xs.toFinset.card < k := by
  obtain ⟨rest, hrest⟩ := firstSeen_initial (xs ++ [x]) ys
  rw [firstSeen_snoc, if_neg hx, List.append_assoc, List.append_assoc, List.singleton_append,
    List.singleton_append] at hrest
  have hfirst : x ∉ firstSeen xs := fun h => hx (mem_firstSeen.mp h)
  rw [← hrest, ← firstSeen_length xs, List.take_append, List.mem_append]
  constructor
  · rintro (hmem | hmem)
    · exact absurd (List.mem_of_mem_take hmem) hfirst
    · by_contra hle
      rw [Nat.sub_eq_zero_of_le (Nat.le_of_not_lt hle), List.take_zero] at hmem
      exact List.not_mem_nil hmem
  · intro hlt
    obtain ⟨n, hn⟩ := Nat.exists_eq_add_of_lt hlt
    right
    rw [hn, Nat.add_assoc, Nat.add_sub_cancel_left, List.take_succ_cons]
    exact List.mem_cons_self ..

namespace Recency

/-- The list after accesses to `ps`. -/
def recencyList (l ps : List α) : List α := ps.foldl (fun l p => p :: l.erase p) l

variable {order : List α} {c : Cache α} {k : ℕ} {l : List α} {p a b : α}

theorem recencyList_snoc (l ps : List α) (p : α) :
    recencyList l (ps ++ [p]) = p :: (recencyList l ps).erase p := by
  rw [recencyList, List.foldl_append]
  rfl

/-- The pages of a session backwards, each where it is met first. -/
theorem recencyList_eq (hl : l.Nodup) (ps : List α) :
    recencyList l ps = firstSeen (ps.reverse ++ l) := by
  induction ps using List.reverseRecOn with
  | nil => exact (firstSeen_of_nodup hl).symm
  | append_singleton ps p ih =>
    rw [recencyList_snoc, ih, List.reverse_append, List.reverse_singleton, List.append_assoc,
      List.singleton_append, firstSeen_cons]

/-- `a` was accessed after `b`, or they were never accessed and `b` comes first. -/
def Newer (order : List α) (last : α → ℕ) (a b : α) : Prop :=
  last b < last a ∨ (last b = last a ∧ List.Sublist [b, a] order)

/-- The first `k` pages of the list are the resident ones, the newer ones in front. -/
structure Listed (order : List α) (k : ℕ) (c : Cache α) (l : List α) : Prop where
  nodup : l.Nodup
  size : k ≤ l.length
  resident : c.resident = (l.take k).toFinset
  newer : (l.take k).Pairwise (Newer order c.last)
  stamps : ∀ q, c.last q ≤ c.time

theorem idxOf_lt_of_pair (hl : l.Nodup) (h : List.Sublist [b, a] l) : l.idxOf b < l.idxOf a := by
  induction l with
  | nil => exact absurd h (by simp)
  | cons x l ih =>
    obtain ⟨hx, hnodup⟩ := List.nodup_cons.mp hl
    cases h with
    | cons _ h =>
      have hb : b ∈ l := h.subset (List.mem_cons_self ..)
      have ha : a ∈ l := h.subset (List.mem_cons_of_mem _ (List.mem_cons_self ..))
      have hxb : x ≠ b := fun h => hx (h ▸ hb)
      have hxa : x ≠ a := fun h => hx (h ▸ ha)
      rw [List.idxOf_cons_ne _ hxb, List.idxOf_cons_ne _ hxa]
      exact Nat.succ_lt_succ (ih hnodup h)
    | cons_cons _ h =>
      have ha : a ∈ l := List.singleton_sublist.mp h
      have hba : b ≠ a := fun h => hx (h ▸ ha)
      rw [List.idxOf_cons_self, List.idxOf_cons_ne _ hba]
      exact Nat.succ_pos _

/- The last of them is the one that LRU evicts. -/
theorem oldest_of_newer {init : List α} {v : α} (horder : order.Nodup) (hv : v ∈ order)
    (h : (init ++ [v]).Pairwise (Newer order c.last)) :
    oldest order c.last (init ++ [v]).toFinset = some v := by
  have hmem : ∀ q, q ∈ order.filter (· ∈ (init ++ [v]).toFinset) ↔ q ∈ order ∧ q ∈ init ++ [v] := by
    simp [or_comm]
  have hlast : v ∈ (init ++ [v]).toFinset := by simp
  obtain ⟨w, hw⟩ := oldest_isSome c.last hlast hv
  have hargmin := List.argmin_eq_some_iff.mp hw
  by_cases hwv : w = v
  · rw [hw, hwv]
  · have hinit : w ∈ init := by
      have hin := ((hmem w).mp hargmin.1).2
      exact (List.mem_append.mp hin).resolve_right fun h => hwv (List.mem_singleton.mp h)
    have hvmem := (hmem v).mpr ⟨hv, List.mem_append_right _ (List.mem_singleton.mpr rfl)⟩
    rcases (List.pairwise_append.mp h).2.2 w hinit v (List.mem_singleton.mpr rfl) with hlt | htie
    · exact absurd (hargmin.2.1 v hvmem) (Nat.not_le.mpr hlt)
    · have hpair : List.Sublist [v, w] (order.filter (· ∈ (init ++ [v]).toFinset)) := by
        have hfilter := htie.2.filter (p := (· ∈ (init ++ [v]).toFinset))
        rwa [List.filter_eq_self.mpr] at hfilter
        simp [hinit]
      have hidx := idxOf_lt_of_pair (horder.filter _) hpair
      exact absurd (hargmin.2.2 v hvmem (Nat.le_of_eq htie.1)) (Nat.not_le.mpr hidx)

/-! ### An access -/

theorem take_erase_of_mem {n : ℕ} (h : p ∈ l.take (n + 1)) :
    (l.erase p).take n = (l.take (n + 1)).erase p := by
  induction l generalizing n with
  | nil => exact absurd h List.not_mem_nil
  | cons x l ih =>
    rw [List.take_succ_cons] at h ⊢
    by_cases hx : x = p
    · rw [hx, List.erase_cons_head, List.erase_cons_head]
    · rw [List.erase_cons_tail (by simpa using hx), List.erase_cons_tail (by simpa using hx)]
      have hmem := (List.mem_cons.mp h).resolve_left (Ne.symm hx)
      cases n with
      | zero => exact absurd hmem List.not_mem_nil
      | succ n => rw [List.take_succ_cons, ih hmem]

theorem take_erase_of_notMem {n : ℕ} (h : p ∉ l.take n) : (l.erase p).take n = l.take n := by
  induction l generalizing n with
  | nil => rfl
  | cons x l ih =>
    cases n with
    | zero => rfl
    | succ n =>
      rw [List.take_succ_cons, List.mem_cons, not_or] at h
      rw [List.erase_cons_tail (by simpa using Ne.symm h.1), List.take_succ_cons,
        List.take_succ_cons, ih h.2]

/- The pages that stay keep their order, behind the one accessed now. -/
theorem newer_moved {last : α → ℕ} {time : ℕ} {rest : List α} (hstamps : ∀ q, last q ≤ time)
    (hp : p ∉ rest) (h : rest.Pairwise (Newer order last)) :
    (p :: rest).Pairwise (Newer order (Function.update last p (time + 1))) := by
  have hne : ∀ q ∈ rest, q ≠ p := fun q hq hqp => hp (hqp ▸ hq)
  refine List.pairwise_cons.mpr ⟨fun q hq => Or.inl ?_, h.imp_of_mem fun ha hb hab => ?_⟩
  · rw [Function.update_self, Function.update_of_ne (hne q hq)]
    exact Nat.lt_succ_of_le (hstamps q)
  · unfold Newer
    rw [Function.update_of_ne (hne _ ha), Function.update_of_ne (hne _ hb)]
    exact hab

theorem Listed.loaded (h : Listed order (k + 1) c l) (horder : order.Nodup)
    (hall : ∀ q, q ∈ order) (p : α) :
    c.loaded order id p = (p :: (l.erase p).take k).toFinset := by
  have hnodup : (l.take (k + 1)).Nodup := h.nodup.sublist (List.take_sublist _ _)
  unfold Cache.loaded
  by_cases hp : p ∈ l.take (k + 1)
  · have hres : p ∈ c.resident := by
      rw [h.resident]
      exact List.mem_toFinset.mpr hp
    rw [if_pos hres, take_erase_of_mem hp, h.resident]
    ext q
    by_cases hq : q = p
    · simp [hq, hp]
    · simp [hq, hnodup.mem_erase_iff]
  · have hres : p ∉ c.resident := by
      rw [h.resident]
      exact fun hmem => hp (List.mem_toFinset.mp hmem)
    have hlen : k < l.length := h.size
    have hsplit : l.take (k + 1) = l.take k ++ [l[k]] := List.take_succ_eq_append_getElem hlen
    have hnewer := h.newer
    rw [hsplit] at hnewer hnodup hp
    have hvictim : oldest order (fun q => id (c.last q)) c.resident = some l[k] := by
      rw [h.resident, hsplit]
      exact oldest_of_newer horder (hall _) hnewer
    have hfirst : p ∉ l.take k := fun hmem => hp (List.mem_append_left _ hmem)
    have hlast : l[k] ∉ l.take k := fun hmem =>
      (List.nodup_append.mp hnodup).2.2 _ hmem _ (List.mem_singleton.mpr rfl) rfl
    rw [if_neg hres, hvictim, take_erase_of_notMem hfirst, h.resident, hsplit]
    ext q
    simp only [Finset.mem_insert, Finset.mem_erase, List.mem_toFinset, List.mem_append,
      List.mem_cons, List.not_mem_nil, or_false]
    refine or_congr_right ⟨fun hq => hq.2.resolve_right hq.1, fun hq => ⟨?_, Or.inl hq⟩⟩
    exact fun heq => hlast (heq ▸ hq)

theorem Listed.access (h : Listed order (k + 1) c l) (horder : order.Nodup)
    (hall : ∀ q, q ∈ order) (p : α) :
    Listed order (k + 1) (c.access order id p) (p :: l.erase p) := by
  have hp : p ∉ l.erase p := h.nodup.not_mem_erase
  have hrest : p ∉ (l.erase p).take k := fun hmem => hp (List.mem_of_mem_take hmem)
  refine ⟨List.nodup_cons.mpr ⟨hp, h.nodup.erase p⟩, ?_, ?_, ?_, fun q => ?_⟩
  · have hlen := h.size
    have hle : l.length ≤ (l.erase p).length + 1 := by
      have hsub := List.length_erase (a := p) (l := l)
      rw [hsub]
      split_ifs <;> omega
    rw [List.length_cons]
    omega
  · rw [List.take_succ_cons]
    exact h.loaded horder hall p
  · rw [List.take_succ_cons]
    refine newer_moved h.stamps hrest ?_
    have hshort : List.Sublist (l.take k) (l.take (k + 1)) :=
      List.take_sublist_take_left (Nat.le_succ k)
    have hsub : List.Sublist ((l.erase p).take k) (l.take (k + 1)) := by
      by_cases hmem : p ∈ l.take (k + 1)
      · rw [take_erase_of_mem hmem]
        exact List.erase_sublist
      · rw [take_erase_of_notMem fun hk => hmem (hshort.subset hk)]
        exact hshort
    exact h.newer.sublist hsub
  · have hq := h.stamps q
    change Function.update c.last p (c.time + 1) q ≤ c.time + 1
    rw [Function.update_apply]
    split_ifs <;> omega

/-- A run of LRU replacement holds the first `k` pages of the recency list. -/
theorem Listed.run (h : Listed order (k + 1) c l) (horder : order.Nodup) (hall : ∀ q, q ∈ order)
    (ps : List α) : Listed order (k + 1) (c.run order id ps) (recencyList l ps) := by
  induction ps using List.reverseRecOn with
  | nil => exact h
  | append_singleton ps p ih =>
    rw [Cache.run_snoc, recencyList_snoc]
    exact ih.access horder hall p

theorem Listed.resident_run (h : Listed order (k + 1) c l) (horder : order.Nodup)
    (hall : ∀ q, q ∈ order) (ps : List α) (q : α) :
    q ∈ (c.run order id ps).resident ↔ q ∈ (firstSeen (ps.reverse ++ l)).take (k + 1) := by
  rw [(h.run horder hall ps).resident, recencyList_eq h.nodup, List.mem_toFinset]

/-- A page that was accessed is resident when fewer than `k` others were accessed since. -/
theorem Listed.resident_since (h : Listed order (k + 1) c l) (horder : order.Nodup)
    (hall : ∀ q, q ∈ order) (xs : List α) {ys : List α} {q : α} (hq : q ∉ ys) :
    q ∈ (c.run order id (xs ++ q :: ys)).resident ↔ ys.toFinset.card < k + 1 := by
  have hrev : (xs ++ q :: ys).reverse ++ l = ys.reverse ++ q :: (xs.reverse ++ l) := by
    simp
  rw [h.resident_run horder hall, hrev, mem_take_firstSeen fun hmem => hq (List.mem_reverse.mp hmem),
    List.toFinset_reverse]

/-- After a stretch of accesses to at most as many pages as the cache holds, it holds them. -/
theorem Listed.resident_stretch (h : Listed order (k + 1) c l) (horder : order.Nodup)
    (hall : ∀ q, q ∈ order) (xs : List α) {us : List α} {q : α} (hq : q ∈ us)
    (hfew : us.toFinset.card ≤ k + 1) : q ∈ (c.run order id (xs ++ us)).resident := by
  obtain ⟨ys, vs, hsplit, hlast⟩ := List.eq_append_cons_of_mem (List.mem_reverse.mpr hq)
  have hus : us = vs.reverse ++ q :: ys.reverse := by
    rw [← List.reverse_reverse us, hsplit]
    simp
  have hsub : ys.toFinset ⊂ us.toFinset := by
    refine Finset.ssubset_iff_subset_ne.mpr ⟨fun y hy => ?_, fun heq => hlast ?_⟩
    · rw [hus]
      simp [List.mem_toFinset.mp hy]
    · rw [← List.mem_toFinset, heq]
      exact List.mem_toFinset.mpr hq
  have hrest : q ∉ ys.reverse := fun hmem => hlast (List.mem_reverse.mp hmem)
  have hsince := h.resident_since horder hall (xs ++ vs.reverse) hrest
  rw [hus, ← List.append_assoc, hsince, List.toFinset_reverse]
  exact Nat.lt_of_lt_of_le (Finset.card_lt_card hsub) hfew

end Recency

end SyeLabs

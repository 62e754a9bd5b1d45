import Mathlib.Data.List.Chain
import Mathlib.Tactic

/-!
# Circular doubly linked lists

A list through `next` and `prev` pointers, with a head node that is not an element. `Circ k h l`
says that following `next` from the head `h` visits the nodes `l` in this order and comes back, and
that `prev` is the way back.

`unlink` and `pushFront` are the usual assignments, one after the other, and `scan` is a loop along
the list that stops at the first node with a property. A loop that goes on for too long returns
`none`; along a `Circ` it does not (`Circ.scan`), and the loop along `prev` is the one along `next`
of the list with the pointers exchanged (`Circ.swap`).
-/

namespace DList

open List Function

variable {N : Type} [DecidableEq N]

/-- The links of a doubly linked list. -/
structure Links (N : Type) where
  next : N → N
  prev : N → N

namespace Links

def setNext (k : Links N) (a b : N) : Links N := { k with next := update k.next a b }

def setPrev (k : Links N) (a b : N) : Links N := { k with prev := update k.prev a b }

/-- Read the list the other way. -/
def swap (k : Links N) : Links N := ⟨k.prev, k.next⟩

/-- `b->next->prev = b->prev; b->prev->next = b->next`. -/
def unlink (k : Links N) (b : N) : Links N :=
  let k := k.setPrev (k.next b) (k.prev b)
  k.setNext (k.prev b) (k.next b)

/-- `b->next = h->next; b->prev = h; h->next->prev = b; h->next = b`. -/
def pushFront (k : Links N) (h b : N) : Links N :=
  let k := k.setNext b (k.next h)
  let k := k.setPrev b h
  let k := k.setPrev (k.next h) b
  k.setNext h b

end Links

/-- The nodes from the head on, in the order of `next`. -/
structure Circ (k : Links N) (h : N) (l : List N) : Prop where
  nodup : (h :: l).Nodup
  chain : List.IsChain (fun a b => k.next a = b ∧ k.prev b = a) (h :: (l ++ [h]))

variable {k k' : Links N} {h b : N} {l l1 l2 : List N} {P : N → Bool}

omit [DecidableEq N] in
lemma Circ.swap (hc : Circ k h l) : Circ k.swap h l.reverse := by
  refine ⟨?_, ?_⟩
  · simpa using hc.nodup
  · have hrev : h :: (l.reverse ++ [h]) = (h :: (l ++ [h])).reverse := by simp
    rw [hrev, isChain_reverse]
    exact hc.chain.imp fun a b hab => ⟨hab.2, hab.1⟩

/-! ## Removing a node -/

lemma unlink_next (hne : k.next b ≠ b) :
    (k.unlink b).next = update k.next (k.prev b) (k.next b) := by
  simp [Links.unlink, Links.setNext, Links.setPrev, update_of_ne hne.symm]

lemma unlink_prev : (k.unlink b).prev = update k.prev (k.next b) (k.prev b) := rfl

/-- The part of a list that does not contain `b` keeps its links when `b` is taken out. -/
lemma unlink_chain {L : List N} (hb : b ∉ L) (hx : k.next (k.prev b) = b)
    (hy : k.prev (k.next b) = b)
    (hL : List.IsChain (fun a c => k.next a = c ∧ k.prev c = a) L) (hne : k.next b ≠ b) :
    List.IsChain (fun a c => (k.unlink b).next a = c ∧ (k.unlink b).prev c = a) L := by
  refine hL.imp_of_mem_imp fun a c ha hc hac => ?_
  have ha' : a ≠ k.prev b := by
    rintro rfl
    rw [hx] at hac
    exact hb (hac.1 ▸ hc)
  have hc' : c ≠ k.next b := by
    rintro rfl
    rw [hy] at hac
    exact hb (hac.2 ▸ ha)
  rw [unlink_next hne, unlink_prev, update_of_ne ha', update_of_ne hc']
  exact hac

lemma Circ.unlink (hc : Circ k h (l1 ++ b :: l2)) : Circ (k.unlink b) h (l1 ++ l2) := by
  obtain ⟨A, x, hA⟩ : ∃ A x, h :: l1 = A ++ [x] :=
    ⟨_, _, (dropLast_append_getLast (cons_ne_nil h l1)).symm⟩
  obtain ⟨y, B, hB⟩ : ∃ y B, l2 ++ [h] = y :: B := exists_cons_of_ne_nil (by simp)
  have hnd := hc.nodup
  have hbA : b ∉ A ++ [x] := by
    rw [← hA]
    intro hmem
    have := nodup_append.mp (show ((h :: l1) ++ b :: l2).Nodup from hnd)
    exact this.2.2 b hmem b (by simp) rfl
  have hbB : b ∉ y :: B := by
    rw [← hB]
    intro hmem
    rcases mem_append.mp hmem with hmem | hmem
    · have := nodup_append.mp (show ((h :: l1) ++ b :: l2).Nodup from hnd)
      exact (nodup_cons.mp this.2.1).1 hmem
    · rw [mem_singleton] at hmem
      exact hbA (by rw [← hA, hmem]; simp)
  -- the links around `b`
  have hchain : List.IsChain (fun a c => k.next a = c ∧ k.prev c = a)
      ((A ++ [x]) ++ b :: (y :: B)) := by
    rw [← hA, ← hB]
    simpa using hc.chain
  obtain ⟨h1, h2, hxb⟩ := isChain_append.mp hchain
  have hxb' := hxb x (by simp) b rfl
  rw [isChain_cons_cons] at h2
  obtain ⟨⟨hby, hyb⟩, h2⟩ := h2
  have hx : k.prev b = x := hxb'.2
  have hne : k.next b ≠ b := by
    rw [hby]
    rintro rfl
    exact hbB (by simp)
  have hnx : k.next (k.prev b) = b := by rw [hx]; exact hxb'.1
  have hpy : k.prev (k.next b) = b := by rw [hby]; exact hyb
  refine ⟨?_, ?_⟩
  · refine hnd.sublist ?_
    exact (List.Sublist.append_left (sublist_cons_self b l2) l1).cons_cons h
  · have hlist : h :: (l1 ++ l2 ++ [h]) = (A ++ [x]) ++ (y :: B) := by
      rw [← hA, ← hB]
      simp
    rw [hlist]
    refine isChain_append.mpr ⟨unlink_chain hbA hnx hpy h1 hne, unlink_chain hbB hnx hpy h2 hne, ?_⟩
    intro x' hx' y' hy'
    simp only [getLast?_append, getLast?_singleton, Option.mem_def, Option.some_or,
      Option.some.injEq] at hx'
    simp only [head?_cons, Option.mem_def, Option.some.injEq] at hy'
    subst hx' hy'
    rw [unlink_next hne, unlink_prev, hx, hby, update_self, update_self]
    exact ⟨rfl, rfl⟩

/-! ## Adding a node in front -/

lemma Circ.pushFront (hc : Circ k h l) (hb : b ∉ h :: l) : Circ (k.pushFront h b) h (b :: l) := by
  obtain ⟨y, B, hB⟩ : ∃ y B, l ++ [h] = y :: B := exists_cons_of_ne_nil (by simp)
  have hchain := hc.chain
  rw [hB, isChain_cons_cons] at hchain
  obtain ⟨⟨hhy, hyh⟩, hchain⟩ := hchain
  have hbh : b ≠ h := fun he => hb (he ▸ mem_cons_self ..)
  have hndB : (y :: B).Nodup := by
    rw [← hB]
    have hnd := nodup_cons.mp hc.nodup
    simp only [nodup_append, nodup_singleton, mem_singleton, true_and]
    refine ⟨hnd.2, ?_⟩
    rintro a ha _ rfl rfl
    exact hnd.1 ha
  have hyB : y ∉ B := (nodup_cons.mp hndB).1
  have hbB : b ∉ y :: B := by
    rw [← hB]
    simpa [and_comm, or_comm] using hb
  have hyb : y ≠ b := fun he => hbB (he ▸ mem_cons_self ..)
  have hnext : ∀ a, (k.pushFront h b).next a = if a = h then b else if a = b then y
      else k.next a := by
    intro a
    simp only [Links.pushFront, Links.setNext, Links.setPrev, update_apply]
    split_ifs <;> simp_all
  have hprev : ∀ a, (k.pushFront h b).prev a = if a = y then b else if a = b then h
      else k.prev a := by
    intro a
    simp only [Links.pushFront, Links.setNext, Links.setPrev]
    rw [update_of_ne (Ne.symm hbh), hhy]
    simp only [update_apply]
  refine ⟨?_, ?_⟩
  · have hnd := nodup_cons.mp hc.nodup
    simp only [nodup_cons, mem_cons, not_or] at hb ⊢
    exact ⟨⟨Ne.symm hbh, hnd.1⟩, hb.2, hnd.2⟩
  · rw [cons_append, hB, isChain_cons_cons, isChain_cons_cons, hnext, hnext, hprev,
      hprev, if_pos rfl, if_pos rfl, if_neg hbh, if_pos rfl, if_neg (Ne.symm hyb), if_pos rfl]
    refine ⟨⟨rfl, rfl⟩, ⟨rfl, rfl⟩, hchain.imp_of_mem_tail_imp fun a c ha hcB hac => ?_⟩
    have hcy : c ≠ y := fun he => hyB (he ▸ hcB)
    have hcb : c ≠ b := fun he => hbB (mem_cons_of_mem _ (he ▸ hcB))
    have hah : a ≠ h := by
      rintro rfl
      rw [hhy] at hac
      exact hcy hac.1.symm
    have hab : a ≠ b := fun he => hbB (he ▸ ha)
    rw [hnext, hprev, if_neg hah, if_neg hab, if_neg hcy, if_neg hcb]
    exact hac

/-! ## Loops along the list -/

/-- `for (b = a; b != h; b = b->next) if (P(b)) break;` — the node found, if any; `none` if the loop
runs for more than `n` rounds. -/
def scan (next : N → N) (h : N) (P : N → Bool) : ℕ → N → Option (Option N)
  | 0, a => if a = h then some none else none
  | n + 1, a => if a = h then some none else if P a then some (some a) else scan next h P n (next a)

lemma scan_of_chain {a : N} {n : ℕ} (hn : l.length ≤ n) (hl : h ∉ l)
    (hc : List.IsChain (fun a b => k.next a = b ∧ k.prev b = a) (a :: (l ++ [h]))) :
    scan k.next h P n (k.next a) = some (l.find? P) := by
  induction l generalizing a n with
  | nil =>
    rw [nil_append, isChain_cons_cons] at hc
    rw [hc.1.1]
    cases n <;> simp [scan]
  | cons b l ih =>
    rw [cons_append, isChain_cons_cons] at hc
    obtain ⟨hbh, hlh⟩ := not_or.mp (fun hx => hl (mem_cons.mpr hx))
    obtain ⟨n, rfl⟩ : ∃ m, n = m + 1 := ⟨n - 1, by simp at hn; omega⟩
    rw [hc.1.1, scan, if_neg (Ne.symm hbh), find?_cons]
    cases hP : P b with
    | true => rfl
    | false => exact ih (by simpa using hn) hlh hc.2

/-- The loop stops, at the first node of the list that has the property. -/
lemma Circ.scan {n : ℕ} (hc : Circ k h l) (hn : l.length ≤ n) :
    DList.scan k.next h P n (k.next h) = some (l.find? P) :=
  scan_of_chain hn (nodup_cons.mp hc.nodup).1 hc.chain

end DList

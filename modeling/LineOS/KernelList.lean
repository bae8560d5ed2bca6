import LineOS.ByteMemory
import LineOS.LinkedRing

/- `include/ds/list.h`: circular doubly linked lists threaded through structures
   in memory. A `struct list_head` is two words, `next` at its address and `prev`
   four bytes on. The links of a memory are read by `listNext` and `listPrev`,
   and over them the lists are rings (`LinkedRing`): `ring_initListHead` and
   `ring_listAdd` are what the two constructors do to a ring, and the `writes_`
   lemmas what they store to. -/
namespace LineOS
open ByteMemory ByteMemory.Mem LinkedRing

def listNext (m : Mem) (p : U32) : U32 := m.load32 p
def listPrev (m : Mem) (p : U32) : U32 := m.load32 (p + 4)

/-- `INIT_LIST_HEAD` -/
def initListHead (p : U32) (m : Mem) : Mem := (m.store32 p p).store32 (p + 4) p

/-- `__list_add` -/
def listAddBetween (new prev next : U32) (m : Mem) : Mem :=
  (((m.store32 (next + 4) new).store32 new next).store32 (new + 4) prev).store32 prev new

def listAdd (new head : U32) (m : Mem) : Mem := listAddBetween new head (listNext m head) m

/-- The ring of `head` in memory `m`. -/
abbrev MemRing (m : Mem) (head : U32) (as : List U32) : Prop := Ring (listNext m) (listPrev m) head as

/-- Distinct list heads whose `n` bytes do not overlap or run past the top. -/
structure Spread (n : Nat) (as : List U32) : Prop where
  nodup : as.Nodup
  apart : ∀ a ∈ as, ∀ b ∈ as, a ≠ b → a.toNat + n ≤ b.toNat ∨ b.toNat + n ≤ a.toNat
  top : ∀ a ∈ as, a.toNat + n ≤ 2 ^ 32

/-- The bytes of the list heads at `as`. -/
def LinkByte (as : List U32) (x : U32) : Prop := ∃ a ∈ as, InSpan a 8 x

theorem toNat_add_four {a : U32} (h : a.toNat + 8 ≤ 2 ^ 32) : (a + 4).toNat = a.toNat + 4 := by
  bv_omega

theorem inSpan_low {a x : U32} (h : InSpan a 4 x) : InSpan a 8 x := by
  unfold InSpan at h ⊢
  omega

theorem inSpan_high {a x : U32} (ha : a.toNat + 8 ≤ 2 ^ 32) (h : InSpan (a + 4) 4 x) :
    InSpan a 8 x := by
  unfold InSpan at h ⊢
  rw [toNat_add_four ha] at h
  omega

/-! `INIT_LIST_HEAD`. -/

theorem ring_initListHead (m : Mem) {p : U32} (hp : p.toNat + 8 ≤ 2 ^ 32) :
    MemRing (initListHead p m) p [] := by
  have h4 := toNat_add_four hp
  refine ring_nil.mpr ⟨?_, ?_⟩
  · rw [listNext, initListHead, load32_store32_off _ _ (by omega) (by omega) (by omega),
      load32_store32_same]
  · rw [listPrev, initListHead, load32_store32_same]

theorem writes_initListHead (m : Mem) {p : U32} (hp : p.toNat + 8 ≤ 2 ^ 32) :
    WritesOnly (InSpan p 8) m (initListHead p m) := by
  have h4 := toNat_add_four hp
  exact (WritesOnly.store32 m p (by omega) (fun _ => inSpan_low)).trans
    (WritesOnly.store32 _ p (by omega) (fun _ => inSpan_high hp))

/-! `list_add`. -/

section
variable {m : Mem} {new head : U32} {as : List U32}

theorem listNext_mem (h : MemRing m head as) : listNext m head ∈ head :: as := by
  rw [h.next_head]
  exact first_mem

/-- The four stores of `list_add` land in list heads. -/
theorem writes_listAdd (h : MemRing m head as) (hs : Spread 8 (new :: head :: as)) :
    WritesOnly (LinkByte (new :: head :: as)) m (listAdd new head m) := by
  have hn := listNext_mem h
  have tn := hs.top _ (List.mem_cons_of_mem new hn)
  have tnew := hs.top new (by simp)
  have thead := hs.top head (by simp)
  have hlow : ∀ a ∈ new :: head :: as, ∀ x, InSpan a 4 x → LinkByte (new :: head :: as) x :=
    fun a ha x hx => ⟨a, ha, inSpan_low hx⟩
  have hhigh : ∀ a ∈ new :: head :: as, ∀ x, InSpan (a + 4) 4 x → LinkByte (new :: head :: as) x :=
    fun a ha x hx => ⟨a, ha, inSpan_high (hs.top a ha) hx⟩
  have s1 := WritesOnly.store32 m new (by rw [toNat_add_four tn]; omega)
    (hhigh _ (List.mem_cons_of_mem new hn))
  have s2 := s1.trans (WritesOnly.store32 _ (listNext m head) (by omega) (hlow new (by simp)))
  have s3 := s2.trans (WritesOnly.store32 _ head (by rw [toNat_add_four tnew]; omega) (hhigh new (by simp)))
  exact s3.trans (WritesOnly.store32 _ new (by omega) (hlow head (by simp)))

theorem writes_listAdd_any (m : Mem) (new head : U32) : WritesOnly (fun _ => True) m (listAdd new head m) :=
  (((WritesOnly.store32_any m _ _).trans (WritesOnly.store32_any _ _ _)).trans
    (WritesOnly.store32_any _ _ _)).trans (WritesOnly.store32_any _ _ _)

/-! A store to one link word, as the links of spread list heads see it. -/

section
variable {bs : List U32} {a b : U32} (hs : Spread 8 bs) (ha : a ∈ bs) (hb : b ∈ bs) (w : U32)
include hs ha hb

theorem listNext_storeNext (m : Mem) :
    listNext (m.store32 a w) b = if b = a then w else listNext m b := by
  have ta := hs.top a ha
  have tb := hs.top b hb
  split
  · next h => rw [h, listNext, load32_store32_same]
  · next h =>
    have hab := hs.apart b hb a ha h
    exact load32_store32_off m w (by omega) (by omega) (by omega)

theorem listNext_storePrev (m : Mem) : listNext (m.store32 (a + 4) w) b = listNext m b := by
  have ta := hs.top a ha
  have tb := hs.top b hb
  have hab := hs.apart b hb a ha
  have e := toNat_add_four ta
  refine load32_store32_off m w (by omega) (by omega) ?_
  by_cases h : b = a
  · subst h; omega
  · have := hab h; omega

theorem listPrev_storeNext (m : Mem) : listPrev (m.store32 a w) b = listPrev m b := by
  have ta := hs.top a ha
  have tb := hs.top b hb
  have hab := hs.apart b hb a ha
  have e := toNat_add_four tb
  refine load32_store32_off m w (by omega) (by omega) ?_
  by_cases h : b = a
  · subst h; omega
  · have := hab h; omega

theorem listPrev_storePrev (m : Mem) :
    listPrev (m.store32 (a + 4) w) b = if b = a then w else listPrev m b := by
  have ta := hs.top a ha
  have tb := hs.top b hb
  have ea := toNat_add_four ta
  have eb := toNat_add_four tb
  split
  · next h => rw [h, listPrev, load32_store32_same]
  · next h =>
    have hab := hs.apart b hb a ha h
    exact load32_store32_off m w (by omega) (by omega) (by omega)

end

/-- **`list_add` puts the new node first.** -/
theorem ring_listAdd (h : MemRing m head as) (hs : Spread 8 (new :: head :: as)) :
    MemRing (listAdd new head m) head (new :: as) := by
  obtain ⟨hnew, hnd⟩ := List.nodup_cons.mp hs.nodup
  have mem : ∀ z ∈ head :: as, z ∈ new :: head :: as := fun z hz => List.mem_cons_of_mem new hz
  have mnew : new ∈ new :: head :: as := List.mem_cons_self
  have mhead : head ∈ new :: head :: as := mem head List.mem_cons_self
  have mfirst := mem (first head as) first_mem
  -- what the links are after the four stores, at any node
  have hnext : ∀ z ∈ new :: head :: as, listNext (listAdd new head m) z =
      if z = head then new else if z = new then first head as else listNext m z := by
    intro z hz
    simp only [listAdd, listAddBetween, h.next_head]
    rw [listNext_storeNext hs mhead hz, listNext_storePrev hs mnew hz, listNext_storeNext hs mnew hz,
      listNext_storePrev hs mfirst hz]
  have hprev : ∀ z ∈ new :: head :: as, listPrev (listAdd new head m) z =
      if z = new then head else if z = first head as then new else listPrev m z := by
    intro z hz
    simp only [listAdd, listAddBetween, h.next_head]
    rw [listPrev_storeNext hs mhead hz, listPrev_storePrev hs mnew hz, listPrev_storeNext hs mnew hz,
      listPrev_storePrev hs mfirst hz]
  have ne_new : ∀ z ∈ head :: as, z ≠ new := fun z hz e => hnew (e ▸ hz)
  refine h.push hnd ?_ ?_ ?_ ?_ ?_ ?_
  · rw [hnext head mhead, if_pos rfl]
  · rw [hprev new mnew, if_pos rfl]
  · rw [hnext new mnew, if_neg (ne_new head List.mem_cons_self).symm, if_pos rfl]
  · rw [hprev _ mfirst, if_neg (ne_new _ first_mem), if_pos rfl]
  · intro z hz
    have hz' : z ∈ head :: as := List.mem_cons_of_mem head hz
    rw [hnext z (mem z hz'), if_neg (fun e : z = head => (List.nodup_cons.mp hnd).1 (e ▸ hz)), if_neg (ne_new z hz')]
  · intro z hz hzf
    rw [hprev z (mem z hz), if_neg (ne_new z hz), if_neg hzf]

/-- **`list_add_tail` puts the new node last.** -/
theorem ring_listAddLast (h : MemRing m head as) (hs : Spread 8 (new :: head :: as)) :
    MemRing (listAddBetween new (listPrev m head) head m) head (as ++ [new]) := by
  obtain ⟨hnew, hnd⟩ := List.nodup_cons.mp hs.nodup
  have mem : ∀ z ∈ head :: as, z ∈ new :: head :: as := fun z hz => List.mem_cons_of_mem new hz
  have mnew : new ∈ new :: head :: as := List.mem_cons_self
  have mhead : head ∈ new :: head :: as := mem head List.mem_cons_self
  have mlast := mem (listPrev m head) h.prev_head
  have hnext : ∀ z ∈ new :: head :: as, listNext (listAddBetween new (listPrev m head) head m) z =
      if z = listPrev m head then new else if z = new then head else listNext m z := by
    intro z hz
    rw [listAddBetween, listNext_storeNext hs mlast hz, listNext_storePrev hs mnew hz, listNext_storeNext hs mnew hz,
      listNext_storePrev hs mhead hz]
  have hprev : ∀ z ∈ new :: head :: as, listPrev (listAddBetween new (listPrev m head) head m) z =
      if z = new then listPrev m head else if z = head then new else listPrev m z := by
    intro z hz
    rw [listAddBetween, listPrev_storeNext hs mlast hz, listPrev_storePrev hs mnew hz, listPrev_storeNext hs mnew hz,
      listPrev_storePrev hs mhead hz]
  have ne_new : ∀ z ∈ head :: as, z ≠ new := fun z hz e => hnew (e ▸ hz)
  refine h.snoc hnd ?_ ?_ ?_ ?_ ?_ ?_
  · rw [hprev head mhead, if_neg (ne_new head List.mem_cons_self), if_pos rfl]
  · rw [hnext new mnew, if_neg (ne_new _ h.prev_head).symm, if_pos rfl]
  · rw [hprev new mnew, if_pos rfl]
  · rw [hnext _ mlast, if_pos rfl]
  · intro z hz
    have hz' : z ∈ head :: as := List.mem_cons_of_mem head hz
    rw [hprev z (mem z hz'), if_neg (ne_new z hz'), if_neg fun e : z = head => (List.nodup_cons.mp hnd).1 (e ▸ hz)]
  · intro z hz hzl
    rw [hnext z (mem z hz), if_neg hzl, if_neg (ne_new z hz)]

/-! `list_del`. -/

/-- `list_del`: the links of `entry` itself stay. -/
def listDel (entry : U32) (m : Mem) : Mem :=
  (m.store32 (listNext m entry + 4) (listPrev m entry)).store32 (listPrev m entry) (listNext m entry)

section
variable {x : U32} {pre post : List U32}

theorem ring_neighbours (h : MemRing m head (pre ++ x :: post)) :
    listNext m x ∈ head :: (pre ++ post) ∧ listPrev m x ∈ head :: (pre ++ post) := by
  refine ⟨?_, ?_⟩
  · rw [h.next_mid]
    exact List.mem_cons.mpr ((List.mem_cons.mp first_mem).imp id (List.mem_append_right _))
  · exact List.mem_cons.mpr ((List.mem_cons.mp h.prev_mid).imp id (List.mem_append_left _))

theorem writes_listDel (h : MemRing m head (pre ++ x :: post)) (hs : Spread 8 (head :: (pre ++ x :: post))) :
    WritesOnly (LinkByte (head :: (pre ++ post))) m (listDel x m) := by
  obtain ⟨hn, hp⟩ := ring_neighbours h
  have hsub : ∀ a ∈ head :: (pre ++ post), a.toNat + 8 ≤ 2 ^ 32 := fun a ha =>
    hs.top a (List.mem_cons.mpr ((List.mem_cons.mp ha).imp id fun ha =>
      List.mem_append.mpr ((List.mem_append.mp ha).imp id (List.mem_cons_of_mem _))))
  have tn := hsub _ hn
  have tp := hsub _ hp
  exact (WritesOnly.store32 m _ (by rw [toNat_add_four tn]; omega) fun y hy => ⟨_, hn, inSpan_high tn hy⟩).trans
    (WritesOnly.store32 _ _ (by omega) fun y hy => ⟨_, hp, inSpan_low hy⟩)

/-- **`list_del` takes the node out.** -/
theorem ring_listDel (h : MemRing m head (pre ++ x :: post)) (hs : Spread 8 (head :: (pre ++ x :: post))) :
    MemRing (listDel x m) head (pre ++ post) := by
  obtain ⟨hn, hp⟩ := ring_neighbours h
  have mem : ∀ z ∈ head :: (pre ++ post), z ∈ head :: (pre ++ x :: post) := fun z hz =>
    List.mem_cons.mpr ((List.mem_cons.mp hz).imp id fun hz =>
      List.mem_append.mpr ((List.mem_append.mp hz).imp id (List.mem_cons_of_mem _)))
  have hnext : ∀ z ∈ head :: (pre ++ post), listNext (listDel x m) z =
      if z = listPrev m x then listNext m x else listNext m z := by
    intro z hz
    rw [listDel, listNext_storeNext hs (mem _ hp) (mem z hz), listNext_storePrev hs (mem _ hn) (mem z hz)]
  have hprev : ∀ z ∈ head :: (pre ++ post), listPrev (listDel x m) z =
      if z = listNext m x then listPrev m x else listPrev m z := by
    intro z hz
    rw [listDel, listPrev_storeNext hs (mem _ hp) (mem z hz), listPrev_storePrev hs (mem _ hn) (mem z hz)]
  refine h.remove hs.nodup ?_ ?_ ?_ ?_
  · rw [hnext _ hp, if_pos rfl]
  · rw [hprev _ hn, if_pos rfl]
  · intro z hz hne
    rw [hnext z hz, if_neg hne]
  · intro z hz hne
    rw [hprev z hz, if_neg hne]

end

/-- Memory that agrees on the bytes of its list heads has the same ring. -/
theorem MemRing.frame {m' : Mem} {P : U32 → Prop} (h : MemRing m head as) (hw : WritesOnly P m m')
    (htop : ∀ a ∈ head :: as, a.toNat + 8 ≤ 2 ^ 32) (hP : ∀ x, LinkByte (head :: as) x → ¬ P x) :
    MemRing m' head as := by
  refine Ring.congr h ?_
  intro a ha
  have ta := htop a ha
  refine ⟨?_, ?_⟩
  · exact hw.load32_eq (by omega) (fun x hx => hP x ⟨a, ha, inSpan_low hx⟩)
  · exact hw.load32_eq (by rw [toNat_add_four ta]; omega) (fun x hx => hP x ⟨a, ha, inSpan_high ta hx⟩)

end
end LineOS

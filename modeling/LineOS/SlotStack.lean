import LineOS.ByteMemory

/- A stack in memory as the list of what was pushed on it. A slot is four bytes
   that hold a word, a half word and two bytes that nobody reads, or something
   that is popped and thrown away. `Holds m sp
   ss` says that the slots from `sp` upwards are `ss`: a push puts one in front of
   the list (`Holds.push`, `Holds.pushHalf`), a pop takes the first, and memory
   that agrees on the slots holds them still (`Holds.congr`). -/
namespace SlotStack
open ByteMemory ByteMemory.Mem

inductive Slot where
  | word (w : U32)
  | half (h : BitVec 16)
  | any

/-- What the slot at `a` reads as. -/
def Slot.In (m : Mem) (a : U32) : Slot → Prop
  | .word w => m.load32 a = w
  | .half h => (m.load32 a).setWidth 16 = h
  | .any => True

/-- The slots from `a` on. -/
def Holds (m : Mem) (a : U32) : List Slot → Prop
  | [] => True
  | s :: ss => s.In m a ∧ Holds m (a + 4) ss

theorem Slot.In.congr {m m' : Mem} {a : U32} {s : Slot} (h : s.In m a) (e : m'.load32 a = m.load32 a) :
    s.In m' a := by
  cases s with
  | word w => exact e.trans h
  | half w =>
    show (m'.load32 a).setWidth 16 = w
    rw [e]
    exact h
  | any => trivial

theorem Holds.congr {m m' : Mem} : ∀ {ss : List Slot} {a : U32}, Holds m a ss → a.toNat + 4 * ss.length ≤ 2 ^ 32 →
    (∀ x, InSpan a (4 * ss.length) x → m'.byte x = m.byte x) → Holds m' a ss
  | [], _, _, _, _ => trivial
  | s :: ss, a, h, htop, hb => by
    rw [List.length_cons] at htop hb
    refine ⟨h.1.congr (load32_congr (by omega) fun x hx => hb x ?_), ?_⟩
    · unfold InSpan at hx ⊢
      omega
    · by_cases hn : ss = []
      · subst hn
        exact trivial
      · have hpos : 0 < ss.length := List.length_pos_iff.2 hn
        have e : (a + 4).toNat = a.toNat + 4 := by bv_omega
        refine h.2.congr (by omega) fun x hx => hb x ?_
        unfold InSpan at hx ⊢
        omega

/-- The slots `tt` are those of `ss`, some of them forgotten. -/
def Forgets (ss tt : List Slot) : Prop := List.Forall₂ (fun s t => t = s ∨ t = .any) ss tt

theorem Holds.forget {m : Mem} : ∀ {ss tt : List Slot} {a : U32}, Forgets ss tt → Holds m a ss → Holds m a tt
  | _, _, _, .nil, _ => trivial
  | _, _, _, .cons he hr, h => by
    refine ⟨?_, h.2.forget hr⟩
    obtain rfl | rfl := he
    · exact h.1
    · exact trivial

section
variable {m : Mem} {sp : U32} {ss : List Slot}

theorem push_addr (hlo : 4 ≤ sp.toNat) : (sp - 4).toNat = sp.toNat - 4 := by
  bv_omega

theorem pop_push (sp : U32) : sp - 4 + 4 = sp := BitVec.sub_add_cancel sp 4

theorem Holds.under {m' : Mem} {P : U32 → Prop} (h : Holds m sp ss) (htop : sp.toNat + 4 * ss.length ≤ 2 ^ 32)
    (hw : WritesOnly P m m') (hP : ∀ x, P x → x.toNat < sp.toNat) : Holds m' sp ss :=
  h.congr htop fun x hx => hw.2 x fun hp => Nat.not_lt.2 hx.1 (hP x hp)

theorem writes_push (w : U32) (hlo : 4 ≤ sp.toNat) :
    WritesOnly (InSpan (sp - 4) 4) m (m.store32 (sp - 4) w) :=
  WritesOnly.store32 m w (by rw [push_addr hlo]; omega) fun _ hx => hx

theorem writes_pushHalf (w : BitVec 16) (hlo : 4 ≤ sp.toNat) :
    WritesOnly (InSpan (sp - 4) 4) m (m.store16 (sp - 4) w) :=
  WritesOnly.store16 m w (by rw [push_addr hlo]; omega) fun _ hx => ⟨hx.1, by have := hx.2; omega⟩

theorem Holds.push (h : Holds m sp ss) (hlo : 4 ≤ sp.toNat) (htop : sp.toNat + 4 * ss.length ≤ 2 ^ 32) (w : U32) :
    Holds (m.store32 (sp - 4) w) (sp - 4) (.word w :: ss) := by
  refine ⟨load32_store32_same m _ w, ?_⟩
  rw [pop_push]
  refine h.under htop (writes_push w hlo) fun x hx => ?_
  unfold InSpan at hx
  rw [push_addr hlo] at hx
  omega

theorem Holds.pushHalf (h : Holds m sp ss) (hlo : 4 ≤ sp.toNat) (htop : sp.toNat + 4 * ss.length ≤ 2 ^ 32)
    (w : BitVec 16) : Holds (m.store16 (sp - 4) w) (sp - 4) (.half w :: ss) := by
  refine ⟨load32_store16_same m _ w, ?_⟩
  rw [pop_push]
  refine h.under htop (writes_pushHalf w hlo) fun x hx => ?_
  unfold InSpan at hx
  rw [push_addr hlo] at hx
  omega

end

end SlotStack

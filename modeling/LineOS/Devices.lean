import LineOS.HeapStore
import Mathlib.Logic.Relation

/- `drv/devmgr.c`: the registered devices, as structures in the kernel heap on the
   list `k_devs`. The registry is never locked and never shrinks: whatever the rest
   of the kernel does with the heap, the list holds the devices registered so far,
   newest first and as they were registered (`device_registry`), and a walk of
   `foreachdevice` meets those it began with, also when what it calls registers
   more (`foreach_devices`). -/
namespace LineOS
open ByteMemory ByteMemory.Mem LinkedRing Tiling ObjectStore

/-! The code. -/

/-- The fields of a `dev_t` after its `list`. -/
structure Device where
  name : U32
  major : U16
  minor : U16
  devinfo : U32
  devinfoSize : U32
  deriving DecidableEq

/-- `sizeof(dev_t)` -/
def devSize : U32 := 24

def devMajor (m : Mem) (p : U32) : U16 := load16 m (p + 12)

/-- The structure at `p`. -/
def deviceAt (m : Mem) (p : U32) : Device :=
  ⟨m.load32 (p + 8), devMajor m p, load16 m (p + 14), m.load32 (p + 16), m.load32 (p + 20)⟩

def initDevices (devs : U32) (s : Heap) : Heap := { s with mem := initListHead devs s.mem }

def fillDevice (dev : U32) (d : Device) (m : Mem) : Mem :=
  let m := m.store32 (dev + 8) d.name
  let m := m.store16 (dev + 12) d.major
  let m := m.store16 (dev + 14) d.minor
  let m := m.store32 (dev + 16) d.devinfo
  m.store32 (dev + 20) d.devinfoSize

/-- `register_device(name, major, minor, devinfo, devinfo_size)`, with `devs` for `&k_devs`. -/
def registerDevice (L : HeapLayout) (devs : U32) (d : Device) (s : Heap) : Option Heap :=
  (kmalloc L devSize s).map fun (dev, s) =>
    let s := if dev = 0 then s.panic "Couldn't allocate memory while registering device" else s
    { s with mem := listAdd dev devs (fillDevice dev d s.mem) }

/-- The heap, what the other code has of it, and the devices registered so far, newest first. -/
structure DevWorld where
  heap : Heap
  live : List (U32 × U32)
  devs : List (U32 × Device)

/-- Where the other code stores: its payloads, and memory that is neither the heap's nor the list's head. -/
def ElseByte (L : HeapLayout) (devs : U32) (s : Heap) (live : List (U32 × U32)) (x : U32) : Prop :=
  InUse payloadCells live x ∨
    ¬ InSpan L.chain 16 x ∧ ¬ InSpan devs 8 x ∧ (x.toNat < s.base.toNat ∨ s.brk.toNat ≤ x.toNat)

inductive DevStep (L : HeapLayout) (devs : U32) : DevWorld → DevWorld → Prop
  | register {s live ds p s₁ s'} (d : Device) : Admissible L devSize s → kmalloc L devSize s = some (p, s₁) →
      registerDevice L devs d s = some s' → DevStep L devs ⟨s, live, ds⟩ ⟨s', live, (p, d) :: ds⟩
  | kmalloc {s live ds bytes p s'} : bytes ≠ 0 → Admissible L bytes s → kmalloc L bytes s = some (p, s') →
      DevStep L devs ⟨s, live, ds⟩ ⟨s', (p, bytes) :: live, ds⟩
  | kfree {s live ds} (l : U32 × U32) : l ∈ live → DevStep L devs ⟨s, live, ds⟩ ⟨kfree l.1 s, live.erase l, ds⟩
  | store {s live ds} (x : U32) (v : U8) : ElseByte L devs s live x →
      DevStep L devs ⟨s, live, ds⟩ ⟨{ s with mem := s.mem.store8 x v }, live, ds⟩

abbrev DevSteps (L : HeapLayout) (devs : U32) : DevWorld → DevWorld → Prop := Relation.ReflTransGen (DevStep L devs)

/-- `foreachdevice(major, call)` from the node `this` on: the devices it calls with. What is called may do
anything that `call` says. -/
inductive ForEach (devs : U32) (major : U16) (call : U32 → DevWorld → DevWorld → Prop) :
    U32 → DevWorld → List U32 → DevWorld → Prop
  | done {w} : ForEach devs major call devs w [] w
  | skip {this w cs w'} : this ≠ devs → devMajor w.heap.mem this ≠ major →
      ForEach devs major call (listNext w.heap.mem this) w cs w' → ForEach devs major call this w cs w'
  | call {this w w₁ cs w'} : this ≠ devs → devMajor w.heap.mem this = major → call this w w₁ →
      ForEach devs major call (listNext w₁.heap.mem this) w₁ cs w' → ForEach devs major call this w (this :: cs) w'

/-! What the registry is. -/

/-- The list's head lies in the kernel image, apart from the heap's. -/
structure ImageHead (L : HeapLayout) (devs : U32) : Prop where
  lo : kVirStart.toNat ≤ devs.toNat
  hi : devs.toNat + 8 ≤ L.kernelEnd.toNat
  apart : ∀ x, InSpan devs 8 x → ¬ InSpan L.chain 16 x

def devPayload (e : U32 × Device) : U32 × U32 := (e.1, devSize)

/-- The structures are payloads beside those of the others, on the list in this order, with these fields. -/
structure Registry (L : HeapLayout) (devs : U32) (w : DevWorld) : Prop where
  reach : ∃ all, Reach L w.heap all ∧ all.Perm (w.devs.map devPayload ++ w.live)
  ring : MemRing w.heap.mem devs (w.devs.map Prod.fst)
  fields : ∀ e ∈ w.devs, deviceAt w.heap.mem e.1 = e.2

section
variable {L : HeapLayout} {devs : U32} {s s' : Heap} {live all : List (U32 × U32)} {ds : List (U32 × Device)}
  {w w' : DevWorld} {m m' : Mem} {p : U32}

/-! Stores of the heap's clients. -/

theorem Reach.store32_client (h : Reach L s live) {a : U32} (ha : a.toNat + 4 ≤ 2 ^ 32)
    (hc : ∀ x, InSpan a 4 x → ClientByte L s live x) (v : U32) : Reach L { s with mem := s.mem.store32 a v } live := by
  have h0 := Reach.client a (v.extractLsb' 0 8) h (hc a (by unfold InSpan; omega))
  have h1 := Reach.client (a + 1) (v.extractLsb' 8 8) h0 (hc _ (by unfold InSpan; bv_omega))
  have h2 := Reach.client (a + 2) (v.extractLsb' 16 8) h1 (hc _ (by unfold InSpan; bv_omega))
  exact Reach.client (a + 3) (v.extractLsb' 24 8) h2 (hc _ (by unfold InSpan; bv_omega))

theorem Reach.store16_client (h : Reach L s live) {a : U32} (ha : a.toNat + 2 ≤ 2 ^ 32)
    (hc : ∀ x, InSpan a 2 x → ClientByte L s live x) (v : U16) : Reach L { s with mem := s.mem.store16 a v } live := by
  have h0 := Reach.client a (v.extractLsb' 0 8) h (hc a (by unfold InSpan; omega))
  exact Reach.client (a + 1) (v.extractLsb' 8 8) h0 (hc _ (by unfold InSpan; bv_omega))

theorem writesOnly_and {P Q : U32 → Prop} (hp : WritesOnly P m m') (hq : WritesOnly Q m m') :
    WritesOnly (fun x => P x ∧ Q x) m m' := by
  obtain ⟨⟨ws, e, hws⟩, hb⟩ := hp
  obtain ⟨⟨ws', e', hws'⟩, hb'⟩ := hq
  have hsame : ws = ws' := List.append_cancel_right (e.symm.trans e')
  refine ⟨⟨ws, e, fun x hx => ⟨hws x hx, hws' x (hsame ▸ hx)⟩⟩, fun x hx => ?_⟩
  by_cases hpx : P x
  · exact hb' x fun hqx => hx ⟨hpx, hqx⟩
  · exact hb x hpx

theorem kfree_image {l : U32 × U32} (h : Reach L s live) (hlm : l ∈ live) :
    WritesOnly (HeapByte L) s.mem (kfree l.1 s).mem := by
  obtain ⟨bs, hi, hl⟩ := run_inv h
  obtain ⟨b, hb, -, hbp, -⟩ := hl.owner l hlm
  obtain ⟨pre, post, rfl⟩ := List.append_of_mem hb
  have hbb := hi.bounds hb
  rw [hbp]
  obtain ⟨-, -, -, hw⟩ := kfree_step hi
  refine hw.mono fun x hx => .inr (.inr ?_)
  unfold DataByte at hx
  omega

/-! The fields of a structure. -/

/-- The fields of a `dev_t`, as bytes. -/
def FieldByte (p x : U32) : Prop := p.toNat + 8 ≤ x.toNat ∧ x.toNat < p.toNat + 24

theorem deviceAt_eq {P : U32 → Prop} (hw : WritesOnly P m m') (hp : p.toNat + 24 ≤ 2 ^ 32)
    (hP : ∀ x, FieldByte p x → ¬ P x) : deviceAt m' p = deviceAt m p := by
  have e8 : (p + 8).toNat = p.toNat + 8 := by bv_omega
  have e12 : (p + 12).toNat = p.toNat + 12 := by bv_omega
  have e14 : (p + 14).toNat = p.toNat + 14 := by bv_omega
  have e16 : (p + 16).toNat = p.toNat + 16 := by bv_omega
  have e20 : (p + 20).toNat = p.toNat + 20 := by bv_omega
  unfold FieldByte at hP
  unfold deviceAt devMajor
  rw [hw.load32_eq (b := p + 8) (by omega) fun x hx => hP x (by unfold InSpan at hx; omega),
    WritesOnly.load16_eq hw (b := p + 12) (by omega) fun x hx => hP x (by unfold InSpan at hx; omega),
    WritesOnly.load16_eq hw (b := p + 14) (by omega) fun x hx => hP x (by unfold InSpan at hx; omega),
    hw.load32_eq (b := p + 16) (by omega) fun x hx => hP x (by unfold InSpan at hx; omega),
    hw.load32_eq (b := p + 20) (by omega) fun x hx => hP x (by unfold InSpan at hx; omega)]

/-- What `register_device` writes into the structure is what is read from it. -/
theorem fillDevice_reads (d : Device) (m : Mem) (hp : p.toNat + 24 ≤ 2 ^ 32) :
    deviceAt (fillDevice p d m) p = d ∧ WritesOnly (FieldByte p) m (fillDevice p d m) := by
  have e8 : (p + 8).toNat = p.toNat + 8 := by bv_omega
  have e12 : (p + 12).toNat = p.toNat + 12 := by bv_omega
  have e14 : (p + 14).toNat = p.toNat + 14 := by bv_omega
  have e16 : (p + 16).toNat = p.toNat + 16 := by bv_omega
  have e20 : (p + 20).toNat = p.toNat + 20 := by bv_omega
  unfold fillDevice
  dsimp only
  -- each store, with the fields from its own offset on
  have w₁ : WritesOnly (InSpan (p + 8) 16) m (m.store32 (p + 8) d.name) :=
    WritesOnly.store32 _ _ (by omega) fun x hx => by unfold InSpan at hx ⊢; omega
  generalize hm₁ : m.store32 (p + 8) d.name = m₁ at w₁ ⊢
  have w₂ : WritesOnly (InSpan (p + 12) 12) m₁ (m₁.store16 (p + 12) d.major) :=
    WritesOnly.store16 _ _ (by omega) fun x hx => by unfold InSpan at hx ⊢; omega
  generalize hm₂ : m₁.store16 (p + 12) d.major = m₂ at w₂ ⊢
  have w₃ : WritesOnly (InSpan (p + 14) 10) m₂ (m₂.store16 (p + 14) d.minor) :=
    WritesOnly.store16 _ _ (by omega) fun x hx => by unfold InSpan at hx ⊢; omega
  generalize hm₃ : m₂.store16 (p + 14) d.minor = m₃ at w₃ ⊢
  have w₄ : WritesOnly (InSpan (p + 16) 8) m₃ (m₃.store32 (p + 16) d.devinfo) :=
    WritesOnly.store32 _ _ (by omega) fun x hx => by unfold InSpan at hx ⊢; omega
  generalize hm₄ : m₃.store32 (p + 16) d.devinfo = m₄ at w₄ ⊢
  have w₅ : WritesOnly (InSpan (p + 20) 4) m₄ (m₄.store32 (p + 20) d.devinfoSize) :=
    WritesOnly.store32 _ _ (by omega) fun x hx => by unfold InSpan at hx ⊢; omega
  have t₄ : WritesOnly (InSpan (p + 16) 8) m₃ _ := w₄.trans (w₅.mono fun x hx => by unfold InSpan at hx ⊢; omega)
  have t₃ : WritesOnly (InSpan (p + 14) 10) m₂ _ := w₃.trans (t₄.mono fun x hx => by unfold InSpan at hx ⊢; omega)
  have t₂ : WritesOnly (InSpan (p + 12) 12) m₁ _ := w₂.trans (t₃.mono fun x hx => by unfold InSpan at hx ⊢; omega)
  refine ⟨?_, (w₁.trans (t₂.mono fun x hx => by unfold InSpan at hx ⊢; omega)).mono fun x hx => ?_⟩
  · have hname : (m₄.store32 (p + 20) d.devinfoSize).load32 (p + 8) = d.name := by
      rw [t₂.load32_eq (by omega) fun x hx hx' => by unfold InSpan at hx hx'; omega, ← hm₁]
      exact load32_store32_same _ _ _
    have hmajor : load16 (m₄.store32 (p + 20) d.devinfoSize) (p + 12) = d.major := by
      rw [WritesOnly.load16_eq t₃ (by omega) fun x hx hx' => by unfold InSpan at hx hx'; omega, ← hm₂]
      exact load16_store16_same _ _ _
    have hminor : load16 (m₄.store32 (p + 20) d.devinfoSize) (p + 14) = d.minor := by
      rw [WritesOnly.load16_eq t₄ (by omega) fun x hx hx' => by unfold InSpan at hx hx'; omega, ← hm₃]
      exact load16_store16_same _ _ _
    have hinfo : (m₄.store32 (p + 20) d.devinfoSize).load32 (p + 16) = d.devinfo := by
      rw [w₅.load32_eq (by omega) fun x hx hx' => by unfold InSpan at hx hx'; omega, ← hm₄]
      exact load32_store32_same _ _ _
    unfold deviceAt devMajor
    rw [hname, hmajor, hminor, hinfo, load32_store32_same]
  · unfold InSpan at hx
    unfold FieldByte
    omega

/-! The registry in memory. -/

theorem devs_apart (hr : Reach L s all) (hp : all.Perm (ds.map devPayload ++ live)) :
    (∀ e ∈ ds, L.kernelEnd.toNat ≤ e.1.toNat ∧ e.1.toNat + 24 < 4290756608) ∧ (ds.map Prod.fst).Nodup ∧
      (∀ e ∈ ds, ∀ e' ∈ ds, e.1 ≠ e'.1 → e.1.toNat + 24 ≤ e'.1.toNat ∨ e'.1.toNat + 24 ≤ e.1.toNat) ∧
      ∀ e ∈ ds, ∀ x, InUse payloadCells live x → ¬ InSpan e.1 24 x := by
  have hmem : ∀ e ∈ ds, devPayload e ∈ all :=
    fun e he => hp.mem_iff.mpr (List.mem_append_left _ (List.mem_map_of_mem he))
  obtain ⟨bs, hi, hl⟩ := run_inv hr
  have hne : (ds.map devPayload ++ live).Pairwise (fun x y => x.1 ≠ y.1) := hp.pairwise hl.distinct fun h => Ne.symm h
  obtain ⟨hne₁, -, hne₂⟩ := List.pairwise_append.mp hne
  have h24 : devSize.toNat = 24 := rfl
  refine ⟨fun e he => live_range (run_inv hr) (hmem e he), ?_, fun e he e' he' hee => ?_, ?_⟩
  · rw [List.Nodup, List.pairwise_map]
    exact (List.pairwise_map (f := devPayload)).mp hne₁
  · have hgap := live_gap (run_inv hr) (hmem e he) (hmem e' he') hee
    simp only [devPayload, h24] at hgap
    omega
  · rintro e he x ⟨l, hl, hx₁, hx₂⟩ hx
    have hgap := live_gap (run_inv hr) (hmem e he) (hp.mem_iff.mpr (List.mem_append_right _ hl))
      (hne₂ _ (List.mem_map_of_mem he) l hl)
    simp only [devPayload, h24] at hgap
    unfold InSpan at hx
    omega

def RegistryByte (devs : U32) (ds : List (U32 × Device)) (x : U32) : Prop :=
  InSpan devs 8 x ∨ ∃ e ∈ ds, InSpan e.1 24 x

theorem image_bounds (hD : ImageHead L devs) : 3221225472 ≤ devs.toNat ∧ devs.toNat + 8 ≤ L.kernelEnd.toNat ∧
    L.kernelEnd.toNat < 4290756608 := by
  have hlo := hD.lo
  rw [kVirStart_toNat] at hlo
  exact ⟨hlo, hD.hi, (chain_bounds L).2.2⟩

theorem devs_spread (hD : ImageHead L devs) (hr : Reach L s all) (hp : all.Perm (ds.map devPayload ++ live)) :
    Spread 8 (devs :: ds.map Prod.fst) := by
  obtain ⟨hrange, hnd, hap, -⟩ := devs_apart hr hp
  have him := image_bounds hD
  have hlow : ∀ a ∈ ds.map Prod.fst, devs.toNat + 8 ≤ a.toNat ∧ a.toNat + 24 < 4290756608 := by
    intro a ha
    obtain ⟨e, he, rfl⟩ := List.mem_map.mp ha
    have := hrange e he
    omega
  refine ⟨List.nodup_cons.mpr ⟨fun ha => ?_, hnd⟩, ?_, ?_⟩
  · have := hlow devs ha
    omega
  · intro a ha c hc hne
    rcases List.mem_cons.mp ha with ha | ha <;> rcases List.mem_cons.mp hc with hc | hc
    · exact absurd (ha.trans hc.symm) hne
    · exact .inl (ha ▸ (hlow c hc).1)
    · exact .inr (hc ▸ (hlow a ha).1)
    · obtain ⟨e, he, rfl⟩ := List.mem_map.mp ha
      obtain ⟨e', he', rfl⟩ := List.mem_map.mp hc
      have := hap e he e' he' hne
      omega
  · intro a ha
    rcases List.mem_cons.mp ha with rfl | ha
    · omega
    · have := hlow a ha
      omega

theorem Registry.frame {P : U32 → Prop} {all' : List (U32 × U32)} (hD : ImageHead L devs) (h : Registry L devs w)
    (hw : WritesOnly P w.heap.mem s'.mem) (hP : ∀ x, RegistryByte devs w.devs x → ¬ P x) (hr : Reach L s' all')
    (hp : all'.Perm (w.devs.map devPayload ++ live)) : Registry L devs ⟨s', live, w.devs⟩ := by
  obtain ⟨hrange, -⟩ := devs_apart hr hp
  refine ⟨⟨all', hr, hp⟩, ?_, fun e he => ?_⟩
  · refine h.ring.frame hw (devs_spread hD hr hp).top ?_
    rintro x ⟨a, ha, hx⟩
    rcases List.mem_cons.mp ha with rfl | ha
    · exact hP x (.inl hx)
    · obtain ⟨e, he, rfl⟩ := List.mem_map.mp ha
      exact hP x (.inr ⟨e, he, by unfold InSpan at hx ⊢; omega⟩)
  · have := hrange e he
    rw [deviceAt_eq hw (by omega) fun x hx => hP x (.inr ⟨e, he, by unfold FieldByte at hx; unfold InSpan; omega⟩)]
    exact h.fields e he

/-! The steps. -/

/-- The other code's bytes are the heap's clients', and off the registry. -/
theorem elseByte_client {x : U32} (hD : ImageHead L devs) (hr : Reach L s all)
    (hp : all.Perm (ds.map devPayload ++ live)) (hx : ElseByte L devs s live x) :
    ClientByte L s all x ∧ ¬ RegistryByte devs ds x := by
  obtain ⟨hrange, -, -, hlive⟩ := devs_apart hr hp
  obtain ⟨bs, hi, hl⟩ := run_inv hr
  obtain ⟨hin, -⟩ := live_apart hi hl
  have him := image_bounds hD
  rcases hx with ⟨l, hlm, hx⟩ | ⟨hc, hd, hx⟩
  · have hla := hp.mem_iff.mpr (List.mem_append_right _ hlm)
    refine ⟨.inl ⟨l, hla, hx⟩, ?_⟩
    rintro (hd | ⟨e, he, hd⟩)
    · have := live_range (run_inv hr) hla
      have hx' : l.1.toNat ≤ x.toNat := hx.1
      unfold InSpan at hd
      omega
    · exact hlive e he x ⟨l, hlm, hx⟩ hd
  · refine ⟨.inr ⟨hc, hx⟩, ?_⟩
    rintro (hd' | ⟨e, he, hd'⟩)
    · exact hd hd'
    · have := hin _ (hp.mem_iff.mpr (List.mem_append_left _ (List.mem_map_of_mem he)))
      have h24 : devSize.toNat = 24 := rfl
      simp only [devPayload, h24] at this
      unfold InSpan at hd'
      omega

theorem store_registry {x : U32} {v : U8} (hD : ImageHead L devs) (h : Registry L devs ⟨s, live, ds⟩)
    (hx : ElseByte L devs s live x) : Registry L devs ⟨{ s with mem := s.mem.store8 x v }, live, ds⟩ := by
  obtain ⟨all, hr, hp⟩ := h.reach
  obtain ⟨hc, hoff⟩ := elseByte_client hD hr hp hx
  refine h.frame hD (WritesOnly.store8 (P := (· = x)) s.mem v rfl) ?_ (.client x v hr hc) hp
  rintro y hy rfl
  exact hoff hy

theorem heap_off_registry (hD : ImageHead L devs) (hp : all.Perm (ds.map devPayload ++ live)) :
    ∀ x, RegistryByte devs ds x → ¬ (HeapByte L x ∧ ¬ InUse payloadCells all x) := by
  have him := image_bounds hD
  rintro x (hx | ⟨e, he, hx⟩) ⟨hb, hu⟩
  · have z16 : (16 : U32).toNat = 16 := rfl
    rcases hb with rfl | hb | hb
    · unfold InSpan at hx
      omega
    · exact hD.apart x hx hb
    · unfold InSpan at hx
      omega
  · exact hu ⟨devPayload e, hp.mem_iff.mpr (List.mem_append_left _ (List.mem_map_of_mem he)), hx⟩

theorem kmalloc_registry {bytes : U32} (hD : ImageHead L devs) (h : Registry L devs ⟨s, live, ds⟩) (hne : bytes ≠ 0)
    (had : Admissible L bytes s) (hk : kmalloc L bytes s = some (p, s')) :
    Registry L devs ⟨s', (p, bytes) :: live, ds⟩ := by
  obtain ⟨all, hr, hp⟩ := h.reach
  refine h.frame hD (writesOnly_and (kmalloc_image (run_inv hr) hne had hk) (kmalloc_keeps (run_inv hr) hne had hk))
    (heap_off_registry hD hp) (.kmalloc hr hne had hk) ?_
  exact (hp.cons _).trans List.perm_middle.symm

theorem kfree_registry {l : U32 × U32} (hD : ImageHead L devs) (h : Registry L devs ⟨s, live, ds⟩) (hl : l ∈ live) :
    Registry L devs ⟨kfree l.1 s, live.erase l, ds⟩ := by
  obtain ⟨all, hr, hp⟩ := h.reach
  have hla : l ∈ all := hp.mem_iff.mpr (List.mem_append_right _ hl)
  obtain ⟨bs, hi, hlive⟩ := run_inv hr
  have hne : (ds.map devPayload ++ live).Pairwise (fun x y => x.1 ≠ y.1) := hp.pairwise hlive.distinct fun h => Ne.symm h
  have hnd : l ∉ ds.map devPayload := fun hm => (List.pairwise_append.mp hne).2.2 l hm l hl rfl
  refine h.frame hD (writesOnly_and (kfree_image hr hla) (kfree_keeps (run_inv hr) hla)) (heap_off_registry hD hp)
    (.kfree l hr hla) ?_
  rw [← List.erase_append_right _ hnd]
  exact hp.erase l

theorem fillDevice_reach (d : Device) (hr : Reach L s all) (hm : (p, devSize) ∈ all) :
    Reach L { s with mem := fillDevice p d s.mem } all := by
  have htop : p.toNat + 24 < 4290756608 := (live_range (run_inv hr) hm).2
  have e8 : (p + 8).toNat = p.toNat + 8 := by bv_omega
  have e12 : (p + 12).toNat = p.toNat + 12 := by bv_omega
  have e14 : (p + 14).toNat = p.toNat + 14 := by bv_omega
  have e16 : (p + 16).toNat = p.toNat + 16 := by bv_omega
  have e20 : (p + 20).toNat = p.toNat + 20 := by bv_omega
  have hpart : ∀ x : U32, p.toNat ≤ x.toNat → x.toNat < p.toNat + 24 → ClientByte L s all x :=
    fun x h₁ h₂ => .inl ⟨(p, devSize), hm, h₁, h₂⟩
  have h₁ := hr.store32_client (a := p + 8) (by omega) (fun x hx => hpart x (by unfold InSpan at hx; omega)
    (by unfold InSpan at hx; omega)) d.name
  have h₂ := h₁.store16_client (a := p + 12) (by omega) (fun x hx => hpart x (by unfold InSpan at hx; omega)
    (by unfold InSpan at hx; omega)) d.major
  have h₃ := h₂.store16_client (a := p + 14) (by omega) (fun x hx => hpart x (by unfold InSpan at hx; omega)
    (by unfold InSpan at hx; omega)) d.minor
  have h₄ := h₃.store32_client (a := p + 16) (by omega) (fun x hx => hpart x (by unfold InSpan at hx; omega)
    (by unfold InSpan at hx; omega)) d.devinfo
  exact h₄.store32_client (a := p + 20) (by omega) (fun x hx => hpart x (by unfold InSpan at hx; omega)
    (by unfold InSpan at hx; omega)) d.devinfoSize

theorem link_client (hD : ImageHead L devs) (hr : Reach L s all) (hp : all.Perm (ds.map devPayload ++ live)) :
    ∀ a ∈ devs :: ds.map Prod.fst, ∀ x, InSpan a 8 x → ClientByte L s all x := by
  have him := image_bounds hD
  obtain ⟨bs, hi, -⟩ := run_inv hr
  intro a ha x hx
  rcases List.mem_cons.mp ha with rfl | ha
  · refine .inr ⟨hD.apart x hx, .inl ?_⟩
    rw [hi.base_eq]
    unfold InSpan at hx
    omega
  · obtain ⟨e, he, rfl⟩ := List.mem_map.mp ha
    have h24 : devSize.toNat = 24 := rfl
    refine .inl ⟨devPayload e, hp.mem_iff.mpr (List.mem_append_left _ (List.mem_map_of_mem he)), hx.1, ?_⟩
    have := hx.2
    simp only [devPayload, h24]
    omega

theorem listAdd_reach (hD : ImageHead L devs) {d : Device} (hr : Reach L s all)
    (hp : all.Perm (((p, d) :: ds).map devPayload ++ live)) (hring : MemRing s.mem devs (ds.map Prod.fst)) :
    Reach L { s with mem := listAdd p devs s.mem } all := by
  have hcl := link_client hD hr hp
  have htop := (devs_spread hD hr hp).top
  have hlow : ∀ a ∈ devs :: ((p, d) :: ds).map Prod.fst, ∀ x, InSpan a 4 x → ClientByte L s all x :=
    fun a ha x hx => hcl a ha x (inSpan_low hx)
  have hhigh : ∀ a ∈ devs :: ((p, d) :: ds).map Prod.fst, ∀ x, InSpan (a + 4) 4 x → ClientByte L s all x :=
    fun a ha x hx => hcl a ha x (inSpan_high (htop a ha) hx)
  have hn : listNext s.mem devs ∈ devs :: ((p, d) :: ds).map Prod.fst := by
    rcases List.mem_cons.mp (listNext_mem hring) with h | h
    · rw [h]
      exact List.mem_cons_self
    · exact List.mem_cons_of_mem _ (List.mem_cons_of_mem _ h)
  have hnew : p ∈ devs :: ((p, d) :: ds).map Prod.fst := List.mem_cons_of_mem _ List.mem_cons_self
  have hhead : devs ∈ devs :: ((p, d) :: ds).map Prod.fst := List.mem_cons_self
  have tn := htop _ hn
  have tp := htop _ hnew
  have th := htop _ hhead
  have h₁ := hr.store32_client (by rw [toNat_add_four tn]; omega) (hhigh _ hn) p
  have h₂ := h₁.store32_client (by omega) (hlow _ hnew) (listNext s.mem devs)
  have h₃ := h₂.store32_client (by rw [toNat_add_four tp]; omega) (hhigh _ hnew) devs
  exact h₃.store32_client (by omega) (hlow _ hhead) p

theorem registerDevice_eq (d : Device) (hr : Reach L s all) (had : Admissible L devSize s) {s₁ : Heap}
    (hk : kmalloc L devSize s = some (p, s₁)) :
    registerDevice L devs d s = some { s₁ with mem := listAdd p devs (fillDevice p d s₁.mem) } := by
  have hp := (kmalloc_fresh (run_inv hr) (by decide) had hk).1
  rw [registerDevice, hk, Option.map_some]
  simp only [if_neg hp]

/-- A structure is filled while nothing leads to it. -/
theorem fill_registry (hD : ImageHead L devs) (d : Device) (h : Registry L devs ⟨s, (p, devSize) :: live, ds⟩)
    (hr : Reach L s all) (hp : all.Perm (((p, d) :: ds).map devPayload ++ live)) :
    Registry L devs ⟨{ s with mem := fillDevice p d s.mem }, (p, devSize) :: live, ds⟩ ∧
      Reach L { s with mem := fillDevice p d s.mem } all ∧ deviceAt (fillDevice p d s.mem) p = d := by
  obtain ⟨hrange, hnd, hap, -⟩ := devs_apart hr hp
  obtain ⟨hlo, hhi⟩ := hrange (p, d) List.mem_cons_self
  have him := image_bounds hD
  dsimp only at hlo hhi
  have hgap : ∀ e ∈ ds, e.1.toNat + 24 ≤ p.toNat ∨ p.toNat + 24 ≤ e.1.toNat := by
    intro e he
    refine hap e (List.mem_cons_of_mem _ he) (p, d) List.mem_cons_self fun hep => ?_
    exact (List.nodup_cons.mp hnd).1 (List.mem_map.mpr ⟨e, he, hep⟩)
  have hmem : (p, devSize) ∈ all := hp.mem_iff.mpr List.mem_cons_self
  obtain ⟨hnew, hw⟩ := fillDevice_reads d s.mem (p := p) (by omega)
  have hrf := fillDevice_reach d hr hmem
  refine ⟨?_, hrf, hnew⟩
  refine h.frame hD hw ?_ hrf (hp.trans List.perm_middle.symm)
  rintro x (hx | ⟨e, he, hx⟩) hf
  · unfold InSpan at hx
    unfold FieldByte at hf
    omega
  · have := hgap e he
    unfold InSpan at hx
    unfold FieldByte at hf
    omega

theorem listAdd_fields (hD : ImageHead L devs) {d : Device} (hr : Reach L s all)
    (hp : all.Perm (((p, d) :: ds).map devPayload ++ live)) (hring : MemRing s.mem devs (ds.map Prod.fst)) :
    ∀ e ∈ (p, d) :: ds, deviceAt (listAdd p devs s.mem) e.1 = deviceAt s.mem e.1 := by
  obtain ⟨hrange, -, hap, -⟩ := devs_apart hr hp
  have him := image_bounds hD
  have hs : Spread 8 (p :: devs :: ds.map Prod.fst) := (devs_spread hD hr hp).perm (List.Perm.swap _ _ _)
  intro e he
  have hre := hrange e he
  refine deviceAt_eq (writes_listAdd hring hs) (by omega) ?_
  rintro x hx ⟨a, ha, hxa⟩
  unfold FieldByte at hx
  unfold InSpan at hxa
  have hnode : ∀ e' ∈ (p, d) :: ds, a ≠ e'.1 := by
    rintro e' he' rfl
    by_cases hee : e.1 = e'.1
    · rw [hee] at hx
      omega
    · have := hap e he e' he' hee
      omega
  rcases List.mem_cons.mp ha with ha | ha
  · exact hnode (p, d) List.mem_cons_self ha
  · rcases List.mem_cons.mp ha with rfl | ha
    · omega
    · obtain ⟨e', he', rfl⟩ := List.mem_map.mp ha
      exact hnode e' (List.mem_cons_of_mem _ he') rfl

theorem link_registry (hD : ImageHead L devs) {d : Device} (h : Registry L devs ⟨s, (p, devSize) :: live, ds⟩)
    (hr : Reach L s all) (hp : all.Perm (((p, d) :: ds).map devPayload ++ live)) (hnew : deviceAt s.mem p = d) :
    Registry L devs ⟨{ s with mem := listAdd p devs s.mem }, live, (p, d) :: ds⟩ := by
  have hkeep := listAdd_fields hD hr hp h.ring
  have hspread : Spread 8 (p :: devs :: ds.map Prod.fst) := (devs_spread hD hr hp).perm (List.Perm.swap _ _ _)
  have hring : MemRing (listAdd p devs s.mem) devs (p :: ds.map Prod.fst) := ring_listAdd h.ring hspread
  have hfields : ∀ e ∈ (p, d) :: ds, deviceAt (listAdd p devs s.mem) e.1 = e.2 := by
    refine List.forall_mem_cons.mpr ⟨(hkeep _ List.mem_cons_self).trans hnew, fun e he => ?_⟩
    exact (hkeep e (List.mem_cons_of_mem _ he)).trans (h.fields e he)
  exact ⟨⟨all, listAdd_reach hD hr hp h.ring, hp⟩, hring, hfields⟩

/-- **A device is registered.** -/
theorem register_registry (hD : ImageHead L devs) (d : Device) (h : Registry L devs ⟨s, live, ds⟩)
    (had : Admissible L devSize s) {s₁ : Heap} (hk : kmalloc L devSize s = some (p, s₁))
    (hs : registerDevice L devs d s = some s') : Registry L devs ⟨s', live, (p, d) :: ds⟩ := by
  obtain ⟨all, hr, hp⟩ := h.reach
  have h₁ := kmalloc_registry hD h (by decide) had hk
  have hr₁ : Reach L s₁ ((p, devSize) :: all) := .kmalloc hr (by decide) had hk
  have hp₁ : ((p, devSize) :: all).Perm (((p, d) :: ds).map devPayload ++ live) := hp.cons _
  obtain ⟨h₂, hrf, hnew⟩ := fill_registry hD d h₁ hr₁ hp₁
  have hlink := link_registry hD h₂ hrf hp₁ hnew
  rw [registerDevice_eq d hr had hk] at hs
  obtain rfl := Option.some.inj hs
  exact hlink

/-- **What every step keeps.** -/
theorem devStep_registry (hD : ImageHead L devs) (hs : DevStep L devs w w') (h : Registry L devs w) :
    Registry L devs w' ∧ w.devs <:+ w'.devs := by
  cases hs with
  | register d had hk hs => exact ⟨register_registry hD d h had hk hs, List.suffix_cons _ _⟩
  | kmalloc hne had hk => exact ⟨kmalloc_registry hD h hne had hk, List.suffix_rfl⟩
  | kfree l hl => exact ⟨kfree_registry hD h hl, List.suffix_rfl⟩
  | store x v hx => exact ⟨store_registry hD h hx, List.suffix_rfl⟩

theorem devSteps_registry (hD : ImageHead L devs) (hs : DevSteps L devs w w') (h : Registry L devs w) :
    Registry L devs w' ∧ w.devs <:+ w'.devs := by
  induction hs with
  | refl => exact ⟨h, List.suffix_rfl⟩
  | tail _ hstep ih =>
    obtain ⟨hreg, hsuf⟩ := devStep_registry hD hstep ih.1
    exact ⟨hreg, ih.2.trans hsuf⟩

theorem init_registry (hD : ImageHead L devs) (h : Reach L s live) : Registry L devs ⟨initDevices devs s, live, []⟩ := by
  have him := image_bounds hD
  have hcl := @link_client L devs s live live [] hD h (List.Perm.refl _)
  have h4 : (devs + 4).toNat = devs.toNat + 4 := toNat_add_four (by omega)
  have h₁ := h.store32_client (a := devs) (by omega) (fun x hx => hcl devs List.mem_cons_self x (inSpan_low hx)) devs
  have h₂ := h₁.store32_client (a := devs + 4) (by omega)
    (fun x hx => hcl devs List.mem_cons_self x (inSpan_high (by omega) hx)) devs
  exact ⟨⟨live, h₂, List.Perm.refl _⟩, ring_initListHead s.mem (by omega), by simp⟩

/-! Walks. -/

theorem Registry.notMem (hD : ImageHead L devs) (h : Registry L devs w) : devs ∉ w.devs.map Prod.fst := by
  obtain ⟨all, hr, hp⟩ := h.reach
  exact (List.nodup_cons.mp (devs_spread hD hr hp).nodup).1

theorem nodup_length {as : List U32} {a : U32} (h : (a :: as).Nodup) : as.length < 2 ^ 32 := by
  have hn : ((a :: as).map BitVec.toNat).Nodup := h.map fun _ _ e => BitVec.eq_of_toNat_eq e
  have hsub : (a :: as).map BitVec.toNat ⊆ List.range (2 ^ 32) := by
    intro n hn
    obtain ⟨b, -, rfl⟩ := List.mem_map.mp hn
    exact List.mem_range.mpr b.isLt
  have hle := (List.subperm_of_subset hn hsub).length_le
  rw [List.length_map, List.length_cons, List.length_range] at hle
  omega

theorem Registry.next {pre post : List (U32 × Device)} {e : U32 × Device} (h : Registry L devs w)
    (hw : w.devs = pre ++ e :: post) : listNext w.heap.mem e.1 = first devs (post.map Prod.fst) := by
  have hring := h.ring
  rw [hw, List.map_append, List.map_cons] at hring
  unfold MemRing LinkedRing.Ring at hring
  rw [List.append_assoc, List.cons_append, ← List.cons_append] at hring
  exact next_first (List.isChain_append.mp hring).2.1

theorem Registry.major {e : U32 × Device} (h : Registry L devs w) (he : e ∈ w.devs) :
    devMajor w.heap.mem e.1 = e.2.major :=
  congrArg Device.major (h.fields e he)

/-- A walk from some device on: those of the major number that were there when it came by. -/
theorem forEach_calls (hD : ImageHead L devs) {major : U16} {call : U32 → DevWorld → DevWorld → Prop}
    (hcall : ∀ a w w', call a w w' → DevSteps L devs w w') {this : U32} {cs : List U32}
    (hf : ForEach devs major call this w cs w') : ∀ pre post, Registry L devs w → w.devs = pre ++ post →
      this = first devs (post.map Prod.fst) →
      cs = (post.filter fun e => e.2.major = major).map Prod.fst ∧ DevSteps L devs w w' := by
  induction hf with
  | @done w =>
    intro pre post h hw hthis
    cases post with
    | nil => exact ⟨rfl, .refl⟩
    | cons e post =>
      refine absurd (List.mem_map.mpr ⟨e, ?_, hthis.symm⟩) (h.notMem hD)
      rw [hw]
      simp
  | @skip this w cs w' hne hmaj _ ih =>
    intro pre post h hw hthis
    cases post with
    | nil => exact absurd hthis hne
    | cons e post =>
      obtain rfl : this = e.1 := hthis
      have he : e.2.major ≠ major := h.major (e := e) (by rw [hw]; simp) ▸ hmaj
      obtain ⟨hcs, hsteps⟩ := ih (pre ++ [e]) post h (by rw [hw]; simp) (h.next hw)
      refine ⟨?_, hsteps⟩
      rw [hcs, List.filter_cons_of_neg (by simpa using he)]
  | @call this w w₁ cs w' hne hmaj hc _ ih =>
    intro pre post h hw hthis
    cases post with
    | nil => exact absurd hthis hne
    | cons e post =>
      obtain rfl : this = e.1 := hthis
      have he : e.2.major = major := h.major (e := e) (by rw [hw]; simp) ▸ hmaj
      -- what is called can only have put more devices before this one
      obtain ⟨h₁, t, ht⟩ := devSteps_registry hD (hcall _ _ _ hc) h
      have hw₁ : w₁.devs = (t ++ pre) ++ e :: post := by rw [← ht, hw, List.append_assoc]
      obtain ⟨hcs, hsteps⟩ := ih (t ++ pre ++ [e]) post h₁ (by rw [hw₁]; simp) (h₁.next hw₁)
      refine ⟨?_, (hcall _ _ _ hc).trans hsteps⟩
      rw [hcs, List.filter_cons_of_pos (by simpa using he), List.map_cons]

theorem forEach_ends (hD : ImageHead L devs) {major : U16} {call : U32 → DevWorld → DevWorld → Prop}
    (hcall : ∀ a w w', call a w w' → DevSteps L devs w w') : ∀ post pre w, Registry L devs w → w.devs = pre ++ post →
      (∀ a w', DevSteps L devs w w' → ∃ w'', call a w' w'') →
      ∃ cs w', ForEach devs major call (first devs (post.map Prod.fst)) w cs w' := by
  intro post
  induction post with
  | nil => exact fun _ w _ _ _ => ⟨[], w, .done⟩
  | cons e post ih =>
    intro pre w h hw hret
    have hmem : e ∈ w.devs := by rw [hw]; simp
    have hne : e.1 ≠ devs := fun he => h.notMem hD (List.mem_map.mpr ⟨e, hmem, he⟩)
    by_cases hmaj : devMajor w.heap.mem e.1 = major
    · obtain ⟨w₁, hc⟩ := hret e.1 w .refl
      have hsteps := hcall _ _ _ hc
      obtain ⟨h₁, t, ht⟩ := devSteps_registry hD hsteps h
      have hw₁ : w₁.devs = (t ++ pre) ++ e :: post := by rw [← ht, hw, List.append_assoc]
      obtain ⟨cs, w', hrest⟩ := ih (t ++ pre ++ [e]) w₁ h₁ (by rw [hw₁]; simp) fun a w' hs => hret a w' (hsteps.trans hs)
      exact ⟨e.1 :: cs, w', .call hne hmaj hc (h₁.next hw₁ ▸ hrest)⟩
    · obtain ⟨cs, w', hrest⟩ := ih (pre ++ [e]) w h (by rw [hw]; simp) hret
      exact ⟨cs, w', .skip hne hmaj (h.next hw ▸ hrest)⟩

/-- **The list holds what was registered.** After `init_devices`, whatever is registered, allocated, freed and
stored elsewhere: a walk of `k_devs` ends and meets the registered devices, newest first, each with the fields it was
registered with. -/
theorem device_registry (hD : ImageHead L devs) (h : Reach L s live)
    (hs : DevSteps L devs ⟨initDevices devs s, live, []⟩ w) :
    nodes (listNext w.heap.mem) devs (2 ^ 32) (listNext w.heap.mem devs) = some (w.devs.map Prod.fst) ∧
      ∀ e ∈ w.devs, deviceAt w.heap.mem e.1 = e.2 := by
  obtain ⟨hreg, -⟩ := devSteps_registry hD hs (init_registry hD h)
  obtain ⟨all, hr, hp⟩ := hreg.reach
  exact ⟨hreg.ring.nodes_eq (hreg.notMem hD) (nodup_length (devs_spread hD hr hp).nodup), hreg.fields⟩

/-- **`foreachdevice` calls with what was registered when it began.** Whatever the function it calls does, more
registrations included: the calls are with the devices of the major number that were on the list, each once, newest
first; and the walk ends if the calls do. -/
theorem foreach_devices (hD : ImageHead L devs) (h : Reach L s live)
    (hs : DevSteps L devs ⟨initDevices devs s, live, []⟩ w) (major : U16) {call : U32 → DevWorld → DevWorld → Prop}
    (hcall : ∀ a w w', call a w w' → DevSteps L devs w w') :
    (∀ cs w', ForEach devs major call (listNext w.heap.mem devs) w cs w' →
      cs = (w.devs.filter fun e => e.2.major = major).map Prod.fst ∧ DevSteps L devs w w') ∧
      ((∀ a w', DevSteps L devs w w' → ∃ w'', call a w' w'') →
        ∃ cs w', ForEach devs major call (listNext w.heap.mem devs) w cs w') := by
  obtain ⟨hreg, -⟩ := devSteps_registry hD hs (init_registry hD h)
  have hfirst : listNext w.heap.mem devs = first devs (w.devs.map Prod.fst) := hreg.ring.next_head
  refine ⟨fun cs w' hf => ?_, fun hret => ?_⟩
  · exact forEach_calls hD hcall hf [] w.devs hreg rfl hfirst
  · rw [hfirst]
    exact forEach_ends hD hcall w.devs [] w hreg rfl hret

end
/-! A registry to run. -/

theorem sampleHead_image : ImageHead sampleLayout sampleHead := by
  refine ⟨by decide, by decide, fun x hx hc => ?_⟩
  have h₁ : sampleHead.toNat = 3221262848 := rfl
  have h₂ : sampleLayout.chain.toNat = 3221262592 := rfl
  unfold InSpan at hx hc
  omega

/-- Two screens of major number 0, and a keyboard. -/
def sampleScreen : Device := ⟨0xC0009400, 0, 0, 0xC0009480, 8⟩
def sampleScreen' : Device := ⟨0xC0009400, 0, 1, 0xC0009488, 8⟩
def sampleKeyboard : Device := ⟨0xC0009408, 7, 0, 0, 0⟩

section
variable {L : HeapLayout} {devs : U32} {w w' : DevWorld}

theorem kmalloc_room {s s' : Heap} {live : List (U32 × U32)} {bytes p : U32} (h : Reach L s live) (hne : bytes ≠ 0)
    (hlt : s.brk.toNat + 20 + bytes.toNat < brkMax.toNat) (hk : kmalloc L bytes s = some (p, s')) :
    s'.brk.toNat ≤ s.brk.toNat + 20 + bytes.toNat := by
  obtain ⟨bs, hi, -⟩ := run_inv h
  cases hf : firstFit bytes bs with
  | none =>
    obtain ⟨s₁, hk₁, -, hbrk, -⟩ := kmalloc_grow hi hne hf hlt
    obtain ⟨-, rfl⟩ := Prod.mk.inj (Option.some.inj (hk.symm.trans hk₁))
    rw [hbrk]
    unfold headLen
    bv_omega
  | some b =>
    obtain ⟨pre, post, rfl⟩ := List.append_of_mem (List.mem_of_find?_eq_some hf)
    obtain ⟨s₁, hk₁, -, hbrk, -⟩ := kmalloc_reuse hi hne hf
    obtain ⟨-, rfl⟩ := Prod.mk.inj (Option.some.inj (hk.symm.trans hk₁))
    rw [hbrk]
    omega

/-- The function a driver gives to `foreachdevice`: it registers `d`. -/
def Registers (L : HeapLayout) (devs : U32) (d : Device) (w w' : DevWorld) : Prop :=
  ∃ p s₁ s', Admissible L devSize w.heap ∧ kmalloc L devSize w.heap = some (p, s₁) ∧
    registerDevice L devs d w.heap = some s' ∧ w' = ⟨s', w.live, (p, d) :: w.devs⟩

theorem Registers.step {d : Device} (h : Registers L devs d w w') : DevStep L devs w w' := by
  obtain ⟨p, s₁, s', had, hk, hs, rfl⟩ := h
  exact .register d had hk hs

theorem Registry.register (hD : ImageHead L devs) (h : Registry L devs w) (d : Device)
    (hroom : w.heap.brk.toNat + 44 < brkMax.toNat) : ∃ p w', Registers L devs d w w' ∧ Registry L devs w' ∧
      w'.live = w.live ∧ w'.devs = (p, d) :: w.devs ∧ w'.heap.brk.toNat ≤ w.heap.brk.toNat + 44 := by
  obtain ⟨all, hr, hp⟩ := h.reach
  obtain ⟨bs, hi, -⟩ := run_inv hr
  have had : Admissible L devSize w.heap := .inr hroom
  obtain ⟨s₁, -, y, hk, -⟩ := kmalloc_step hi (by decide) had
  have hs := @registerDevice_eq L devs _ _ _ d hr had _ hk
  have hreg : Registers L devs d w _ := ⟨_, _, _, had, hk, hs, rfl⟩
  have hle : s₁.brk.toNat ≤ w.heap.brk.toNat + 44 := @kmalloc_room _ _ _ _ devSize _ hr (by decide) hroom hk
  exact ⟨_, _, hreg, (devStep_registry hD hreg.step h).1, rfl, rfl, hle⟩

/-- Three devices are registered, with a payload freed between the second and the third. -/
theorem three_devices (hD : ImageHead L devs) {s : Heap} {l : U32 × U32} {live : List (U32 × U32)}
    (h : Registry L devs ⟨s, l :: live, []⟩) (hroom : s.brk.toNat + 220 < brkMax.toNat) :
    ∃ p q r w, DevSteps L devs ⟨s, l :: live, []⟩ w ∧
      w.devs = [(r, sampleScreen'), (q, sampleKeyboard), (p, sampleScreen)] ∧ w.heap.brk.toNat + 88 < brkMax.toNat := by
  obtain ⟨p, w₁, c₁, h₁, hl₁, hw₁, b₁⟩ := h.register hD sampleScreen (by dsimp only; omega)
  dsimp only at hl₁ hw₁ b₁
  obtain ⟨q, ⟨s₂, live₂, ds₂⟩, c₂, h₂, hl₂, hw₂, b₂⟩ := h₁.register hD sampleKeyboard (by omega)
  dsimp only at hl₂ hw₂ b₂
  rw [hl₁] at hl₂
  subst hl₂
  have hfree : DevStep L devs ⟨s₂, l :: live, ds₂⟩ _ := .kfree l List.mem_cons_self
  have b₃ : (kfree l.1 s₂).brk.toNat = s₂.brk.toNat := by
    unfold kfree
    split
    · rfl
    · dsimp only
      split <;> rfl
  obtain ⟨r, w, c₄, -, -, hw, b₄⟩ := ((devStep_registry hD hfree h₂).1).register hD sampleScreen' (by
    dsimp only
    omega)
  dsimp only at hw b₄
  refine ⟨p, q, r, w, (((Relation.ReflTransGen.single c₁.step).tail c₂.step).tail hfree).tail c₄.step, ?_, by omega⟩
  rw [hw, hw₂, hw₁]

/-- A walk over the screens whose function registers another screen each time comes by the keyboard. -/
theorem screens_walk (hD : ImageHead L devs) {p q r : U32} (h : Registry L devs w)
    (hw : w.devs = [(r, sampleScreen'), (q, sampleKeyboard), (p, sampleScreen)])
    (hroom : w.heap.brk.toNat + 88 < brkMax.toNat) : ∃ t u cs w',
      ForEach devs 0 (fun _ => Registers L devs sampleScreen) (listNext w.heap.mem devs) w cs w' ∧
        w'.devs = [(u, sampleScreen), (t, sampleScreen)] ++ w.devs := by
  obtain ⟨t, w₁, c₁, h₁, -, hw₁, b₁⟩ := h.register hD sampleScreen (by omega)
  obtain ⟨u, w₂, c₂, h₂, -, hw₂, -⟩ := h₁.register hD sampleScreen (by omega)
  refine ⟨t, u, [r, p], w₂, ?_, by rw [hw₂, hw₁]; rfl⟩
  rw [hw] at hw₁
  rw [hw₁] at hw₂
  have hr : listNext w.heap.mem devs = r := by rw [h.ring.next_head, hw]; rfl
  have hq : listNext w₁.heap.mem r = q := @Registry.next _ _ _ [(t, sampleScreen)] _ (r, sampleScreen') h₁ hw₁
  have hp : listNext w₁.heap.mem q = p :=
    @Registry.next _ _ _ [(t, sampleScreen), (r, sampleScreen')] _ (q, sampleKeyboard) h₁ hw₁
  have hend : listNext w₂.heap.mem p = devs := @Registry.next _ _ _
    [(u, sampleScreen), (t, sampleScreen), (r, sampleScreen'), (q, sampleKeyboard)] _ (p, sampleScreen) h₂ hw₂
  have hoff : ∀ {w : DevWorld} {e : U32 × Device}, Registry L devs w → e ∈ w.devs → e.1 ≠ devs :=
    fun h he hc => h.notMem hD (List.mem_map.mpr ⟨_, he, hc⟩)
  have mr : (r, sampleScreen') ∈ w.devs := by rw [hw]; exact List.mem_cons_self
  have mq : (q, sampleKeyboard) ∈ w₁.devs := by rw [hw₁]; exact .tail _ (.tail _ (.head _))
  have mp : (p, sampleScreen) ∈ w₁.devs := by rw [hw₁]; exact .tail _ (.tail _ (.tail _ (.head _)))
  have jr : devMajor w.heap.mem r = 0 := (h.major mr).trans (rfl : sampleScreen'.major = 0)
  have jp : devMajor w₁.heap.mem p = 0 := (h₁.major mp).trans (rfl : sampleScreen.major = 0)
  have jq : devMajor w₁.heap.mem q ≠ 0 := by
    rw [h₁.major mq]
    exact (by decide : sampleKeyboard.major ≠ 0)
  have hlast : ForEach devs 0 (fun _ => Registers L devs sampleScreen) (listNext w₂.heap.mem p) w₂ [] w₂ :=
    hend.symm ▸ .done
  have hmid : ForEach devs 0 (fun _ => Registers L devs sampleScreen) (listNext w₁.heap.mem r) w₁ [p] w₂ :=
    hq.symm ▸ .skip (hoff h₁ mq) jq (hp.symm ▸ .call (hoff h₁ mp) jp c₂ hlast)
  exact hr.symm ▸ .call (hoff h mr) jr c₁ hmid

end

theorem device_run_sample : ∃ p q r w, DevSteps sampleLayout sampleHead
    ⟨initDevices sampleHead sampleHeap, [(0xC000A014, 40), (0xC000A08C, 4096)], []⟩ w ∧
    w.devs = [(r, sampleScreen'), (q, sampleKeyboard), (p, sampleScreen)] ∧ w.heap.brk.toNat + 88 < brkMax.toNat := by
  have hbrk : (initDevices sampleHead sampleHeap).brk.toNat + 220 < brkMax.toNat := by decide +kernel
  exact three_devices sampleHead_image (init_registry sampleHead_image sampleHeap_reach) hbrk

/-- Three devices, newest first, with a payload freed in between. -/
theorem device_registry_sample : ∃ p q r w, DevSteps sampleLayout sampleHead
    ⟨initDevices sampleHead sampleHeap, [(0xC000A014, 40), (0xC000A08C, 4096)], []⟩ w ∧
    nodes (listNext w.heap.mem) sampleHead (2 ^ 32) (listNext w.heap.mem sampleHead) = some [r, q, p] ∧
    deviceAt w.heap.mem r = sampleScreen' ∧ deviceAt w.heap.mem q = sampleKeyboard ∧
    deviceAt w.heap.mem p = sampleScreen := by
  obtain ⟨p, q, r, w, hs, hw, -⟩ := device_run_sample
  obtain ⟨hn, hf⟩ := device_registry sampleHead_image sampleHeap_reach hs
  rw [hw] at hn hf
  simp only [List.forall_mem_cons] at hf
  exact ⟨p, q, r, w, hs, hn, hf.1, hf.2.1, hf.2.2.1⟩

/-- The walk over the screens calls with the two there were, and not with those it registered. -/
theorem foreach_devices_sample : ∃ p q r t u w w',
    w.devs = [(r, sampleScreen'), (q, sampleKeyboard), (p, sampleScreen)] ∧
    ForEach sampleHead 0 (fun _ => Registers sampleLayout sampleHead sampleScreen) (listNext w.heap.mem sampleHead) w
      [r, p] w' ∧ w'.devs = [(u, sampleScreen), (t, sampleScreen)] ++ w.devs := by
  have hD := sampleHead_image
  obtain ⟨p, q, r, w, hs, hw, hroom⟩ := device_run_sample
  obtain ⟨hcalls, -⟩ := @foreach_devices _ _ _ _ _ hD sampleHeap_reach hs 0
    (fun _ => Registers sampleLayout sampleHead sampleScreen) fun _ _ _ hc => .single hc.step
  obtain ⟨t, u, cs, w', hf, hw'⟩ :=
    screens_walk hD (devSteps_registry hD hs (init_registry hD sampleHeap_reach)).1 hw hroom
  obtain rfl : cs = [r, p] := (hcalls cs w' hf).1.trans (by rw [hw]; rfl)
  exact ⟨p, q, r, t, u, w, w', hw, hf, hw'⟩

end LineOS

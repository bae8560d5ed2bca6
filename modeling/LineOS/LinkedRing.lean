import Mathlib.Data.List.Chain

/- Circular doubly linked lists through a head node, over any type of node. The
   links are two functions, `next` and `prev`; a memory gives them by reading
   its link words. `Ring next prev head xs` says that the nodes of `xs`, in this
   order, are what a walk along `next` from `head` meets before it is back, and
   that `prev` undoes every step. `seek` and `nodes` are the loops over such a
   list; on a ring they are `find?` and the list itself. -/
namespace LinkedRing

variable {α : Type} {next prev next' prev' : α → α} {head : α} {xs : List α}

def Linked (next prev : α → α) (x y : α) : Prop := next x = y ∧ prev y = x

/-- The list of `head` has the nodes `xs`, in `next` order. -/
def Ring (next prev : α → α) (head : α) (xs : List α) : Prop :=
  (head :: (xs ++ [head])).IsChain (Linked next prev)

/-- The node after the head: the head itself when the list is empty. -/
def first (head : α) (xs : List α) : α := xs.headD head

theorem ring_nil : Ring next prev head [] ↔ next head = head ∧ prev head = head := by
  simp [Ring, Linked]

theorem first_mem : first head xs ∈ head :: xs := by
  cases xs <;> simp [first]

theorem next_first {x : α} (h : (x :: (xs ++ [head])).IsChain (Linked next prev)) :
    next x = first head xs := by
  cases xs with
  | nil => exact (List.isChain_cons_cons.mp h).1.1
  | cons y ys => exact (List.isChain_cons_cons.mp h).1.1

theorem Ring.next_head (h : Ring next prev head xs) : next head = first head xs := next_first h

theorem Ring.prev_head (h : Ring next prev head xs) : prev head ∈ head :: xs := by
  have hch : ((head :: xs) ++ [head]).IsChain (Linked next prev) := h
  have hlast := (List.isChain_append.1 hch).2.2 _ (List.getLast?_eq_some_getLast (List.cons_ne_nil head xs)) head rfl
  rw [hlast.2]
  exact List.getLast_mem _

/-- A ring reads only the links of its own nodes. -/
theorem Ring.congr (h : Ring next prev head xs)
    (hag : ∀ x ∈ head :: xs, next' x = next x ∧ prev' x = prev x) : Ring next' prev' head xs := by
  refine List.IsChain.imp_of_mem_imp ?_ h
  intro a b ha hb hab
  have mem : ∀ c ∈ head :: (xs ++ [head]), c ∈ head :: xs := by
    intro c hc
    simp only [List.mem_cons, List.mem_append, List.not_mem_nil, or_false] at hc ⊢
    rcases hc with h | h | h
    · exact Or.inl h
    · exact Or.inr h
    · exact Or.inl h
  exact ⟨(hag a (mem a ha)).1.trans hab.1, (hag b (mem b hb)).2.trans hab.2⟩

/-- In a walk that ends at `c`, every step starts at a node before `c`. -/
theorem isChain_source {R : α → α → Prop} {c : α} : ∀ (l : List α), (l ++ [c]).IsChain R →
    (l ++ [c]).IsChain (fun a b => R a b ∧ a ∈ l)
  | [], _ => List.IsChain.singleton _
  | [a], h => by simpa using h
  | a :: b :: l, h => by
    simp only [List.cons_append, List.isChain_cons_cons] at h ⊢
    refine ⟨⟨h.1, by simp⟩, List.IsChain.imp ?_ (isChain_source (b :: l) h.2)⟩
    exact fun _ _ hab => ⟨hab.1, List.mem_cons_of_mem _ hab.2⟩

/-- **Insert after the head.** Four links change: `head` and the old first node
point at `x`, and `x` at both. -/
theorem Ring.push {x : α} (h : Ring next prev head xs) (hnd : (head :: xs).Nodup)
    (h1 : next' head = x) (h2 : prev' x = head) (h3 : next' x = first head xs)
    (h4 : prev' (first head xs) = x) (hnext : ∀ z ∈ xs, next' z = next z)
    (hprev : ∀ z ∈ head :: xs, z ≠ first head xs → prev' z = prev z) :
    Ring next' prev' head (x :: xs) := by
  refine List.isChain_cons_cons.mpr ⟨⟨h1, h2⟩, ?_⟩
  cases xs with
  | nil => simpa [Linked, first] using And.intro h3 h4
  | cons y ys =>
    have hys : (y :: ys ++ [head]).IsChain (Linked next prev) := (List.isChain_cons_cons.mp h).2
    refine List.isChain_cons_cons.mpr ⟨⟨h3, h4⟩, ?_⟩
    refine List.IsChain.imp_of_mem_tail_imp ?_ (isChain_source (y :: ys) hys)
    intro a b _ hb hab
    have hb' : b ∈ ys ∨ b = head := by simpa using hb
    have hby : b ≠ y := by
      -- `y` is the first node: the rest of the walk does not meet it again
      rintro rfl
      simp only [List.nodup_cons, List.mem_cons, not_or] at hnd
      rcases hb' with hb' | hb'
      · exact hnd.2.1 hb'
      · exact hnd.1.1 hb'.symm
    refine ⟨(hnext a hab.2).trans hab.1.1, (hprev b ?_ hby).trans hab.1.2⟩
    rcases hb' with hb' | rfl <;> simp [*]

theorem isChain_relink : ∀ {l : List α}, l.IsChain (Linked next prev) → (∀ z ∈ l.dropLast, next' z = next z) →
    (∀ z ∈ l.tail, prev' z = prev z) → l.IsChain (Linked next' prev')
  | [], _, _, _ => List.IsChain.nil
  | [a], _, _, _ => List.IsChain.singleton a
  | a :: b :: l, h, hn, hp => by
    obtain ⟨hab, hbl⟩ := List.isChain_cons_cons.mp h
    refine List.isChain_cons_cons.mpr ⟨⟨?_, ?_⟩, isChain_relink hbl ?_ ?_⟩
    · exact (hn a (by simp)).trans hab.1
    · exact (hp b (by simp)).trans hab.2
    · exact fun z hz => hn z (by simp [hz])
    · exact fun z hz => hp z (by simp; exact .inr hz)

theorem Ring.reverse (h : Ring next prev head xs) : Ring prev next head xs.reverse := by
  have hl : head :: (xs.reverse ++ [head]) = (head :: (xs ++ [head])).reverse := by simp
  unfold Ring
  rw [hl, List.isChain_reverse]
  exact List.IsChain.imp (fun a b hab => ⟨hab.2, hab.1⟩) h

/-- **Insert before the head.** -/
theorem Ring.snoc {x : α} (h : Ring next prev head xs) (hnd : (head :: xs).Nodup)
    (h1 : prev' head = x) (h2 : next' x = head) (h3 : prev' x = prev head) (h4 : next' (prev head) = x)
    (hprev : ∀ z ∈ xs, prev' z = prev z) (hnext : ∀ z ∈ head :: xs, z ≠ prev head → next' z = next z) :
    Ring next' prev' head (xs ++ [x]) := by
  have hf : first head xs.reverse = prev head := h.reverse.next_head.symm
  have hr := h.reverse.push (x := x) (((List.reverse_perm xs).cons head).nodup_iff.mpr hnd) h1 h2 (h3.trans hf.symm) (hf ▸ h4)
    (fun z hz => hprev z (List.mem_reverse.mp hz)) fun z hz hne => hnext z (by simpa using hz) (hf ▸ hne)
  have := hr.reverse
  rwa [List.reverse_cons, List.reverse_reverse] at this

theorem Ring.around {pre post : List α} {x : α} (h : Ring next prev head (pre ++ x :: post)) :
    ∃ ini a b rest, head :: pre = ini ++ [a] ∧ post ++ [head] = b :: rest ∧ prev x = a ∧ next x = b ∧
      (ini ++ [a]).IsChain (Linked next prev) ∧ (b :: rest).IsChain (Linked next prev) := by
  obtain ⟨ini, a, hini⟩ := (List.eq_nil_or_concat (head :: pre)).resolve_left (by simp)
  rw [List.concat_eq_append] at hini
  obtain ⟨b, rest, hrest⟩ := List.exists_cons_of_ne_nil (l := post ++ [head]) (by simp)
  have hl : head :: (pre ++ x :: post ++ [head]) = ini ++ a :: x :: b :: rest := by
    rw [← hrest]
    calc head :: (pre ++ x :: post ++ [head]) = (head :: pre) ++ x :: (post ++ [head]) := by simp
      _ = ini ++ a :: x :: (post ++ [head]) := by rw [hini, List.append_assoc]; rfl
  unfold Ring at h
  rw [hl] at h
  obtain ⟨hc, hax, hx⟩ := List.isChain_append_cons_cons.mp h
  obtain ⟨hxb, hb⟩ := List.isChain_cons_cons.mp hx
  exact ⟨ini, a, b, rest, hini, hrest, hax.2, hxb.1, hc, hb⟩

theorem Ring.next_mid {pre post : List α} {x : α} (h : Ring next prev head (pre ++ x :: post)) :
    next x = first head post := by
  obtain ⟨-, -, b, rest, -, hrest, -, hnext, -⟩ := h.around
  rw [hnext]
  cases post with
  | nil => exact (List.cons.inj hrest).1.symm
  | cons y post => exact (List.cons.inj hrest).1.symm

theorem Ring.prev_mid {pre post : List α} {x : α} (h : Ring next prev head (pre ++ x :: post)) :
    prev x ∈ head :: pre := by
  obtain ⟨ini, a, -, -, hini, -, hprev, -⟩ := h.around
  rw [hprev, hini]
  simp

/-- **Remove a node**: its neighbours point at each other. -/
theorem Ring.remove {pre post : List α} {x : α} (h : Ring next prev head (pre ++ x :: post))
    (hnd : (head :: (pre ++ x :: post)).Nodup) (h1 : next' (prev x) = next x) (h2 : prev' (next x) = prev x)
    (hnext : ∀ z ∈ head :: (pre ++ post), z ≠ prev x → next' z = next z)
    (hprev : ∀ z ∈ head :: (pre ++ post), z ≠ next x → prev' z = prev z) :
    Ring next' prev' head (pre ++ post) := by
  obtain ⟨ini, a, b, rest, hini, hrest, rfl, rfl, hc, hb⟩ := h.around
  have hl : head :: (pre ++ post ++ [head]) = ini ++ prev x :: next x :: rest := by
    rw [← hrest]
    calc head :: (pre ++ post ++ [head]) = (head :: pre) ++ (post ++ [head]) := by simp
      _ = ini ++ prev x :: (post ++ [head]) := by rw [hini, List.append_assoc]; rfl
  have hpre : (head :: pre).Nodup := hnd.sublist (by simp)
  have hpost : (post ++ [head]).Nodup := by
    have hs : (head :: post).Nodup := hnd.sublist (by simp)
    exact (List.perm_append_singleton head post).nodup_iff.mpr hs
  unfold Ring
  rw [hl]
  refine List.isChain_append_cons_cons.mpr ⟨isChain_relink hc ?_ ?_, ⟨h1, h2⟩, isChain_relink hb ?_ ?_⟩
  · intro z hz
    rw [List.dropLast_concat] at hz
    have hmem : z ∈ head :: pre := hini ▸ List.mem_append_left _ hz
    refine hnext z (List.mem_cons.mpr ((List.mem_cons.mp hmem).imp id (List.mem_append_left _))) fun e => ?_
    rw [hini] at hpre
    exact (List.nodup_append.mp hpre).2.2 z hz (prev x) (by simp) e
  · intro z hz
    rw [← hini, List.tail_cons] at hz
    refine hprev z (List.mem_cons_of_mem _ (List.mem_append_left _ hz)) fun e => ?_
    -- the next node is the head or lies behind `x`
    have hm : next x ∈ post ++ [head] := hrest ▸ List.mem_cons_self
    rcases List.mem_append.mp hm with hm | hm
    · have := (List.nodup_append.mp (List.nodup_cons.mp hnd).2).2.2 z hz (next x) (List.mem_cons_of_mem _ hm)
      exact this e
    · exact (List.nodup_cons.mp hpre).1 (List.mem_singleton.mp hm ▸ e ▸ hz)
  · intro z hz
    rw [← hrest, List.dropLast_concat] at hz
    refine hnext z (List.mem_cons_of_mem _ (List.mem_append_right _ hz)) fun e => ?_
    have hm : prev x ∈ head :: pre := hini ▸ (by simp)
    rcases List.mem_cons.mp hm with hm | hm
    · exact (List.nodup_cons.mp hnd).1 (hm ▸ e ▸ by simp [hz])
    · have := (List.nodup_append.mp (List.nodup_cons.mp hnd).2).2.2 (prev x) hm z (List.mem_cons_of_mem _ hz)
      exact this e.symm
  · intro z hz
    rw [List.tail_cons] at hz
    have hm : z ∈ post ++ [head] := hrest ▸ List.mem_cons_of_mem _ hz
    refine hprev z ?_ fun e => ?_
    · rcases List.mem_append.mp hm with hm | hm
      · exact List.mem_cons_of_mem _ (List.mem_append_right _ hm)
      · exact List.mem_singleton.mp hm ▸ List.mem_cons_self
    · rw [hrest] at hpost
      exact (List.nodup_cons.mp hpost).1 (e ▸ hz)

/-! Loops over a list. -/

/-- The loop `for (pos = x; pos != head; pos = next pos) if (p pos) break;`:
the node it stops at, or `none` inside when it came back to `head`. Out of
fuel it is still running. -/
def seek [DecidableEq α] (next : α → α) (head : α) (p : α → Bool) : Nat → α → Option (Option α)
  | 0, _ => none
  | fuel + 1, x =>
    if x = head then some none
    else if p x then some (some x)
    else seek next head p fuel (next x)

/-- The nodes met from `x` on until `head`. -/
def nodes [DecidableEq α] (next : α → α) (head : α) : Nat → α → Option (List α)
  | 0, _ => none
  | fuel + 1, x => if x = head then some [] else (nodes next head fuel (next x)).map (x :: ·)

section
variable [DecidableEq α]

theorem seek_chain (p : α → Bool) : ∀ (xs : List α) (fuel : Nat), head ∉ xs → xs.length < fuel →
    (xs ++ [head]).IsChain (Linked next prev) → seek next head p fuel (first head xs) = some (xs.find? p)
  | [], fuel + 1, _, _, _ => by simp [seek, first]
  | x :: xs, fuel + 1, hh, hf, hc => by
    have hx : x ≠ head := fun e => hh (by simp [e])
    have ih := seek_chain p xs fuel (fun h => hh (List.mem_cons_of_mem _ h)) (by simpa using hf)
      (List.IsChain.tail hc)
    show seek next head p (fuel + 1) x = _
    rw [seek, if_neg hx, next_first hc, ih, List.find?_cons]
    cases p x <;> simp

/-- On a ring the searching loop ends, at the first node that satisfies `p`. -/
theorem Ring.seek_eq (h : Ring next prev head xs) (hh : head ∉ xs) (p : α → Bool) {fuel : Nat}
    (hf : xs.length < fuel) : seek next head p fuel (next head) = some (xs.find? p) := by
  rw [h.next_head]
  exact seek_chain p xs fuel hh hf (List.IsChain.tail h)

theorem nodes_chain : ∀ (xs : List α) (fuel : Nat), head ∉ xs → xs.length < fuel →
    (xs ++ [head]).IsChain (Linked next prev) → nodes next head fuel (first head xs) = some xs
  | [], fuel + 1, _, _, _ => by simp [nodes, first]
  | x :: xs, fuel + 1, hh, hf, hc => by
    have hx : x ≠ head := fun e => hh (by simp [e])
    have ih := nodes_chain xs fuel (fun h => hh (List.mem_cons_of_mem _ h)) (by simpa using hf)
      (List.IsChain.tail hc)
    show nodes next head (fuel + 1) x = _
    rw [nodes, if_neg hx, next_first hc, ih, Option.map_some]

theorem Ring.nodes_eq (h : Ring next prev head xs) (hh : head ∉ xs) {fuel : Nat}
    (hf : xs.length < fuel) : nodes next head fuel (next head) = some xs := by
  rw [h.next_head]
  exact nodes_chain xs fuel hh hf (List.IsChain.tail h)

end
end LinkedRing

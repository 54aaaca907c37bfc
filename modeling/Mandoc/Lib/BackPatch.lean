import Mathlib.Data.List.Basic

/-!
# Writing Files with Back-Patching

A file is written sequentially.  Places whose contents are not known yet are filled with a
placeholder of the right length; later the position is moved back, the contents are put over
the placeholder, and the position is moved to the end again.  Asking for the position fails
when the position is not below a limit.

- `Runs m s a t` specifies a computation by the states before and after it: unless it fails, it
  takes the file from `s` to `t` and returns `a`.  It may fail only if the file has grown to
  the limit.
- `Puts m n a bs` specifies a sequential computation: started at the position `n` of any file,
  it puts the bytes `bs` over what is there.  At the end of the file that appends them, in
  front of a placeholder it fills the placeholder.
-/

universe u

namespace BackPatch

/-! ## §1 Files and computations that write them -/

/-- A file open for writing. -/
structure OutFile (β : Type u) where
  /-- The contents. -/
  data : List β
  /-- The place of the next byte, at most at the end of the contents. -/
  pos : Nat

/-- Computations that write to a file and may fail. -/
abbrev Write (ε β : Type u) := StateT (OutFile β) (Except ε)

section

variable {ε β α γ γ' δ : Type u}

/-- Contents with some bytes put over what was at a position. -/
def overwrite (d : List β) (n : Nat) (bs : List β) : List β :=
  d.take n ++ bs ++ d.drop (n + bs.length)

/-- Put bytes at the position. -/
def put (bs : List β) : Write ε β PUnit := fun f =>
  .ok (⟨⟩, ⟨overwrite f.data f.pos bs, f.pos + bs.length⟩)

/-- Move the position. -/
def seek (n : Nat) : Write ε β PUnit := fun f => .ok (⟨⟩, { f with pos := n })

/-- The position, if it is below the limit. -/
def tell (limit : Nat) (e : ε) (k : Nat → α) : Write ε β α := fun f =>
  if f.pos < limit then .ok (k f.pos, f) else .error e

/-! ## §2 Overwriting -/

/-- At the end of the contents, putting bytes appends them. -/
theorem overwrite_end (d bs : List β) : overwrite d d.length bs = d ++ bs := by
  simp [overwrite]

/-- Over a placeholder of the same length, putting bytes replaces it. -/
theorem overwrite_hole {hole bs : List β} (hlen : bs.length = hole.length) (d₁ d₂ : List β) :
    overwrite (d₁ ++ (hole ++ d₂)) d₁.length bs = d₁ ++ (bs ++ d₂) := by
  have hdrop : (d₁ ++ (hole ++ d₂)).drop (d₁.length + bs.length) = d₂ := by
    rw [List.drop_append, List.drop_of_length_le (Nat.le_add_right _ _), List.nil_append,
      Nat.add_sub_cancel_left, hlen, List.drop_left]
  rw [overwrite, List.take_left, hdrop, List.append_assoc]

@[simp] theorem overwrite_nil (d : List β) (n : Nat) : overwrite d n [] = d := by
  simp [overwrite]

theorem length_overwrite_ge (d bs : List β) (n : Nat) :
    d.length ≤ (overwrite d n bs).length := by
  simp only [overwrite, List.length_append, List.length_take, List.length_drop]
  omega

/-- The position behind the bytes put is not beyond the end. -/
theorem le_length_overwrite (d bs : List β) {n : Nat} (hn : n ≤ d.length) :
    n + bs.length ≤ (overwrite d n bs).length := by
  simp only [overwrite, List.length_append, List.length_take_of_le hn]
  exact Nat.le_add_right _ _

/-- Bytes put behind other bytes. -/
theorem overwrite_overwrite (d bs cs : List β) {n : Nat} (hn : n ≤ d.length) :
    overwrite (overwrite d n bs) (n + bs.length) cs = overwrite d n (bs ++ cs) := by
  have hlen : (d.take n ++ bs).length = n + bs.length := by
    rw [List.length_append, List.length_take_of_le hn]
  have htake : (d.take n ++ bs ++ d.drop (n + bs.length)).take (n + bs.length) =
      d.take n ++ bs := by
    rw [← hlen, List.take_left]
  have hdrop : (d.take n ++ bs ++ d.drop (n + bs.length)).drop (n + bs.length + cs.length) =
      d.drop (n + (bs ++ cs).length) := by
    rw [← List.drop_drop, ← hlen, List.drop_left, hlen, List.drop_drop, List.length_append,
      Nat.add_assoc]
  rw [overwrite, overwrite, htake, hdrop, overwrite]
  simp only [List.append_assoc]

/-! ## §3 Computations by their states -/

/-- Started in the state `s`, the computation ends in `t` and returns `a`, or it fails because
    the limit does not lie above the final size. -/
def Runs (limit : Nat) (m : Write ε β α) (s : OutFile β) (a : α) (t : OutFile β) : Prop :=
  s.data.length ≤ t.data.length ∧
    (m s = .ok (a, t) ∨ (∃ e, m s = .error e) ∧ limit ≤ t.data.length)

namespace Runs

variable {limit : Nat}

theorem pure (s : OutFile β) (a : α) : Runs limit (pure a : Write ε β α) s a s :=
  ⟨Nat.le_refl _, .inl rfl⟩

/-- Sequential composition. -/
theorem bind {m : Write ε β α} {k : α → Write ε β γ} {s t r : OutFile β} {a : α} {c : γ}
    (hm : Runs limit m s a t) (hk : Runs limit (k a) t c r) : Runs limit (m >>= k) s c r := by
  have hbind : (m >>= k) s = (m s >>= fun p => k p.1 p.2) := rfl
  refine ⟨Nat.le_trans hm.1 hk.1, ?_⟩
  rw [hbind]
  rcases hm.2 with hok | ⟨⟨e, he⟩, hlimit⟩
  · rw [hok]
    exact hk.2
  · rw [he]
    exact .inr ⟨⟨e, rfl⟩, Nat.le_trans hlimit hk.1⟩

theorem seek (s : OutFile β) (n : Nat) :
    Runs limit (seek n : Write ε β PUnit) s ⟨⟩ { s with pos := n } :=
  ⟨Nat.le_refl _, .inl rfl⟩

theorem tell {s : OutFile β} (hpos : s.pos ≤ s.data.length) (e : ε) (k : Nat → α) :
    Runs limit (tell limit e k : Write ε β α) s (k s.pos) s := by
  refine ⟨Nat.le_refl _, ?_⟩
  cases Nat.decLt s.pos limit with
  | isTrue hlt => exact .inl (by simp [BackPatch.tell, hlt])
  | isFalse hge =>
    exact .inr ⟨⟨e, by simp [BackPatch.tell, hge]⟩, Nat.le_trans (Nat.le_of_not_lt hge) hpos⟩

/-- Below the limit a computation succeeds. -/
theorem eq_ok {m : Write ε β α} {s t : OutFile β} {a : α} (h : Runs limit m s a t)
    (hlt : t.data.length < limit) : m s = .ok (a, t) := by
  rcases h.2 with hok | ⟨-, hge⟩
  · exact hok
  · exact absurd hge (Nat.not_le_of_lt hlt)

end Runs

/-! ## §4 Sequential computations -/

/-- Started at the position `n` of any file, the computation puts `bs` there and returns `a`. -/
def Puts (limit : Nat) (m : Write ε β α) (n : Nat) (a : α) (bs : List β) : Prop :=
  ∀ d : List β, n ≤ d.length →
    Runs limit m ⟨d, n⟩ a ⟨overwrite d n bs, n + bs.length⟩

/-- Where the bytes of an element go, in a sequence that starts at the position `n`. -/
def startOf (bytes : δ → List β) (n : Nat) (xs : List δ) (k : Nat) : Nat :=
  n + ((xs.take k).flatMap bytes).length

/-- The next element goes behind an element. -/
theorem startOf_succ {bytes : δ → List β} {n : Nat} {xs : List δ} {k : Nat} {x : δ}
    (hx : xs[k]? = some x) :
    startOf bytes n xs (k + 1) = startOf bytes n xs k + (bytes x).length := by
  simp [startOf, List.take_add_one, hx, Nat.add_assoc]

/-- The bytes put by a loop in which the bytes of an element depend on the position. -/
def placeAll (bytes : Nat → δ → List β) : Nat → List δ → List β
  | _, [] => []
  | n, x :: xs => bytes n x ++ placeAll bytes (n + (bytes n x).length) xs

/-- The positions of the elements in such a loop. -/
def placesOf (bytes : Nat → δ → List β) : Nat → List δ → List Nat
  | _, [] => []
  | n, x :: xs => n :: placesOf bytes (n + (bytes n x).length) xs

@[simp] theorem length_placesOf (bytes : Nat → δ → List β) (n : Nat) (xs : List δ) :
    (placesOf bytes n xs).length = xs.length := by
  induction xs generalizing n with
  | nil => rfl
  | cons x xs ih => simp [placesOf, ih]

theorem placesOf_map (bytes : Nat → γ → List β) (g : δ → γ) (n : Nat) (xs : List δ) :
    placesOf bytes n (xs.map g) = placesOf (fun n x => bytes n (g x)) n xs := by
  induction xs generalizing n with
  | nil => rfl
  | cons x xs ih => simp [placesOf, ih]

theorem placeAll_map (bytes : Nat → γ → List β) (g : δ → γ) (n : Nat) (xs : List δ) :
    placeAll bytes n (xs.map g) = placeAll (fun n x => bytes n (g x)) n xs := by
  induction xs generalizing n with
  | nil => rfl
  | cons x xs ih => simp [placeAll, ih]

/-- What is in front of the end of an element, and what is behind it. -/
theorem length_placeAll (bytes : Nat → δ → List β) {n k place : Nat} {xs : List δ} {x : δ}
    (hx : xs[k]? = some x) (hplace : (placesOf bytes n xs)[k]? = some place) :
    n + (placeAll bytes n xs).length = place + (bytes place x).length +
      (placeAll bytes (place + (bytes place x).length) (xs.drop (k + 1))).length := by
  induction xs generalizing n k with
  | nil => cases hx
  | cons y xs ih =>
    rw [placeAll, List.length_append, ← Nat.add_assoc]
    cases k with
    | zero =>
      obtain rfl : y = x := Option.some.inj hx
      obtain rfl : n = place := Option.some.inj hplace
      rfl
    | succ k => exact ih hx hplace

/-- What holds of the first position and behind every element holds of all positions. -/
theorem forall_placesOf (bytes : Nat → δ → List β) {P : Nat → Prop} {n : Nat} {xs : List δ}
    (hfirst : P n) (hstep : ∀ place, ∀ x ∈ xs, P place → P (place + (bytes place x).length)) :
    ∀ place ∈ placesOf bytes n xs, P place := by
  induction xs generalizing n with
  | nil => exact fun _ h => absurd h List.not_mem_nil
  | cons x xs ih =>
    intro place hplace
    rcases List.mem_cons.mp hplace with rfl | hmem
    · exact hfirst
    · exact ih (hstep n x (List.mem_cons_self ..) hfirst)
        (fun place' y hy => hstep place' y (List.mem_cons_of_mem x hy)) place hmem

namespace Puts

variable {limit : Nat}

theorem pure (n : Nat) (a : α) : Puts limit (pure a : Write ε β α) n a [] := by
  intro d _
  rw [overwrite_nil]
  exact Runs.pure _ a

theorem put (n : Nat) (bs : List β) : Puts limit (put bs : Write ε β PUnit) n ⟨⟩ bs := by
  intro d _
  exact ⟨length_overwrite_ge d bs n, .inl rfl⟩

theorem tell (n : Nat) (e : ε) (k : Nat → α) :
    Puts limit (tell limit e k : Write ε β α) n (k n) [] := by
  intro d hn
  rw [overwrite_nil]
  exact Runs.tell hn e k

/-- Sequential composition. -/
theorem bind {m : Write ε β α} {k : α → Write ε β γ} {n : Nat} {a : α} {c : γ}
    {bs cs : List β} (hm : Puts limit m n a bs)
    (hk : Puts limit (k a) (n + bs.length) c cs) : Puts limit (m >>= k) n c (bs ++ cs) := by
  intro d hn
  have hsecond := hk _ (le_length_overwrite d bs hn)
  rw [overwrite_overwrite d bs cs hn, Nat.add_assoc, ← List.length_append] at hsecond
  exact (hm d hn).bind hsecond

/-- Sequential composition with a computation that puts nothing. -/
theorem bind_nil {m : Write ε β α} {k : α → Write ε β γ} {n : Nat} {a : α} {c : γ}
    {cs : List β} (hm : Puts limit m n a []) (hk : Puts limit (k a) n c cs) :
    Puts limit (m >>= k) n c cs :=
  bind hm hk

/-- The last computation puts nothing. -/
theorem bind_last {m : Write ε β α} {k : α → Write ε β γ} {n : Nat} {a : α} {c : γ}
    {bs : List β} (hm : Puts limit m n a bs) (hk : Puts limit (k a) (n + bs.length) c []) :
    Puts limit (m >>= k) n c bs := by
  simpa using bind hm hk

/-- A loop over a list that puts bytes for each element and collects the results.  The list
    may be the result of an earlier loop, so its elements are given by their places and by the
    elements of a list `xs` that stays the same. -/
theorem mapM {f : γ → Write ε β γ'} {g : Nat → δ → γ} {result : Nat → γ → γ'}
    {bytes : δ → List β} {xs : List δ}
    (h : ∀ n k, ∀ x ∈ xs, Puts limit (f (g k x)) n (result n (g k x)) (bytes x)) (n : Nat) :
    Puts limit ((xs.mapIdx g).mapM f) n
      (xs.mapIdx fun k x => result (startOf bytes n xs k) (g k x)) (xs.flatMap bytes) := by
  induction xs generalizing n g with
  | nil => exact pure n []
  | cons x xs ih =>
    have hrest := ih (g := fun k => g (k + 1))
      (fun n k y hy => h n (k + 1) y (List.mem_cons_of_mem x hy)) (n + (bytes x).length)
    have hstart : ∀ k, startOf bytes (n + (bytes x).length) xs k =
        startOf bytes n (x :: xs) (k + 1) := by
      intro k
      simp [startOf, Nat.add_assoc]
    simp only [hstart] at hrest
    have hfirst := h n 0 x (List.mem_cons_self ..)
    rw [List.mapIdx_cons, List.mapM_cons, List.mapIdx_cons, List.flatMap_cons]
    exact bind hfirst (bind_last hrest (pure _ _))

/-- The same for a list that is not the result of an earlier loop. -/
theorem mapM_self {f : δ → Write ε β γ} {result : Nat → δ → γ} {bytes : δ → List β}
    {xs : List δ} (h : ∀ n, ∀ x ∈ xs, Puts limit (f x) n (result n x) (bytes x)) (n : Nat) :
    Puts limit (xs.mapM f) n (xs.mapIdx fun k x => result (startOf bytes n xs k) x)
      (xs.flatMap bytes) := by
  have hid : xs.mapIdx (fun _ x => x) = xs := by
    apply List.ext_getElem?
    intro i
    simp
  have hloop := mapM (g := fun _ x => x) (fun n _ x hx => h n x hx) n
  rwa [hid] at hloop

/-- A loop over a list that only puts bytes. -/
theorem forM {f : δ → Write ε β PUnit} {bytes : δ → List β} {xs : List δ}
    (h : ∀ n, ∀ x ∈ xs, Puts limit (f x) n PUnit.unit (bytes x)) (n : Nat) :
    Puts limit (xs.forM f) n PUnit.unit (xs.flatMap bytes) := by
  induction xs generalizing n with
  | nil => exact pure n PUnit.unit
  | cons x xs ih =>
    rw [List.flatMap_cons]
    exact bind (h n x (List.mem_cons_self ..))
      (ih (fun n y hy => h n y (List.mem_cons_of_mem x hy)) _)

/-- Put at the end, the bytes are appended. -/
theorem append {m : Write ε β α} {n : Nat} {a : α} {bs d : List β} (h : Puts limit m n a bs)
    (hd : d.length = n) : Runs limit m ⟨d, n⟩ a ⟨d ++ bs, n + bs.length⟩ := by
  subst hd
  have hrun := h d (Nat.le_refl _)
  rwa [overwrite_end] at hrun

/-- Put over a placeholder of the same length, the bytes replace it. -/
theorem fill {m : Write ε β α} {n : Nat} {a : α} {bs hole d₁ : List β}
    (h : Puts limit m n a bs) (hd : d₁.length = n) (hlen : bs.length = hole.length)
    (d₂ : List β) :
    Runs limit m ⟨d₁ ++ (hole ++ d₂), n⟩ a ⟨d₁ ++ (bs ++ d₂), n + bs.length⟩ := by
  subst hd
  have hrun := h (d₁ ++ (hole ++ d₂)) (by simp)
  rwa [overwrite_hole hlen] at hrun

end Puts

/-- A loop of computations that append bytes depending on the position. -/
theorem Runs.mapM_append {limit : Nat} {f : δ → Write ε β γ} {result : Nat → γ}
    {bytes : Nat → δ → List β} {xs : List δ}
    (h : ∀ (d : List β) (n : Nat), d.length = n → ∀ x ∈ xs,
      Runs limit (f x) ⟨d, n⟩ (result n) ⟨d ++ bytes n x, n + (bytes n x).length⟩)
    {d : List β} {n : Nat} (hd : d.length = n) :
    Runs limit (xs.mapM f) ⟨d, n⟩ ((placesOf bytes n xs).map result)
      ⟨d ++ placeAll bytes n xs, n + (placeAll bytes n xs).length⟩ := by
  induction xs generalizing d n with
  | nil =>
    simp only [placeAll, List.append_nil]
    exact Runs.pure _ _
  | cons x xs ih =>
    have hnext : (d ++ bytes n x).length = n + (bytes n x).length := by
      rw [List.length_append, hd]
    have hrest := ih (fun d n hd y hy => h d n hd y (List.mem_cons_of_mem x hy)) hnext
    rw [List.append_assoc, Nat.add_assoc, ← List.length_append] at hrest
    rw [List.mapM_cons, placeAll]
    exact (h d n hd x (List.mem_cons_self ..)).bind (hrest.bind (Runs.pure _ _))

/-! ## §5 Where the bytes are -/

/-- The bytes at a position of the contents. -/
def At (d : List β) (n : Nat) (bs : List β) : Prop := ∃ rest, d.drop n = bs ++ rest

namespace At

theorem self (d : List β) : At d 0 d := ⟨[], by simp⟩

theorem left {d bs cs : List β} {n : Nat} (h : At d n (bs ++ cs)) : At d n bs := by
  obtain ⟨rest, h⟩ := h
  exact ⟨cs ++ rest, by rw [h, List.append_assoc]⟩

theorem right {d bs cs : List β} {n : Nat} (h : At d n (bs ++ cs)) :
    At d (n + bs.length) cs := by
  obtain ⟨rest, h⟩ := h
  exact ⟨rest, by rw [← List.drop_drop, h, List.append_assoc, List.drop_left]⟩

/-- The bytes of one element in a sequence. -/
theorem element {d : List β} {bytes : δ → List β} {n : Nat} {xs : List δ}
    (h : At d n (xs.flatMap bytes)) {k : Nat} {x : δ} (hx : xs[k]? = some x) :
    At d (startOf bytes n xs k) (bytes x) := by
  induction xs generalizing n k with
  | nil => simp at hx
  | cons y ys ih =>
    rw [List.flatMap_cons] at h
    cases k with
    | zero =>
      obtain rfl : y = x := by simpa using hx
      exact h.left
    | succ k =>
      have hnext := ih h.right (by simpa using hx)
      have hstart : startOf bytes n (y :: ys) (k + 1) =
          startOf bytes (n + (bytes y).length) ys k := by
        simp [startOf, Nat.add_assoc]
      rwa [hstart]

/-- The bytes of one element in a sequence in which they depend on the position. -/
theorem placed {d : List β} {bytes : Nat → δ → List β} {n : Nat} {xs : List δ}
    (h : At d n (placeAll bytes n xs)) {k : Nat} {x : δ} (hx : xs[k]? = some x) :
    ∃ m, (placesOf bytes n xs)[k]? = some m ∧ At d m (bytes m x) := by
  induction xs generalizing n k with
  | nil => simp at hx
  | cons y ys ih =>
    rw [placeAll] at h
    cases k with
    | zero =>
      obtain rfl : y = x := by simpa using hx
      exact ⟨n, rfl, h.left⟩
    | succ k => exact ih h.right (by simpa using hx)

end At

end

end BackPatch

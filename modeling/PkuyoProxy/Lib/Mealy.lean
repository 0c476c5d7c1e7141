import PkuyoProxy.Lib.Substring

/-!
# Machines that read one symbol at a time

A machine that reads single symbols cannot tell how its input was cut: running it on a
concatenation is running it on the parts (`run_append`).  Two families of states occur in
readers of delimited formats and their runs are computed here once: states that collect
symbols until a delimiter has been seen (`run_scan_some`, `run_scan_none`), and states
that collect a fixed number of symbols (`run_count_le`, `run_count_lt`).
-/

set_option autoImplicit false

namespace PkuyoProxy.Lib

/-- A deterministic machine with states `σ`, input symbols `ι` and outputs `ο`. -/
structure Mealy (σ ι ο : Type) where
  step : σ → ι → σ × List ο

namespace Mealy

variable {σ ι ο : Type}

/-- The state after an input and everything that was output on the way. -/
def run (m : Mealy σ ι ο) : σ → List ι → σ × List ο
  | s, [] => (s, [])
  | s, x :: xs =>
    let r := m.step s x
    let r' := run m r.1 xs
    (r'.1, r.2 ++ r'.2)

variable (m : Mealy σ ι ο)

/-- The run without inputs stays and puts nothing out. -/
@[simp] theorem run_nil (s : σ) : m.run s [] = (s, []) := rfl

/-- A run takes its first step and puts out what the rest does behind what that step does. -/
theorem run_cons (s : σ) (x : ι) (xs : List ι) :
    m.run s (x :: xs) =
      ((m.run (m.step s x).1 xs).1, (m.step s x).2 ++ (m.run (m.step s x).1 xs).2) := rfl

/-- Two runs behind each other are one, and so are their outputs. -/
theorem run_append (s : σ) (xs ys : List ι) :
    m.run s (xs ++ ys) =
      ((m.run (m.run s xs).1 ys).1, (m.run s xs).2 ++ (m.run (m.run s xs).1 ys).2) := by
  induction xs generalizing s with
  | nil => simp
  | cons x xs ih => simp [run_cons, ih]

section Scan

variable [DecidableEq ι] {d : List ι} (wait : List ι → σ) (fin : List ι → σ × List ο)

/-- While the delimiter is missing, the symbols are collected. -/
theorem run_scan_none
    (hstep : ∀ acc x, m.step (wait acc) x = match find d (acc ++ [x]) with
      | none => (wait (acc ++ [x]), [])
      | some e => fin ((acc ++ [x]).take e))
    (acc xs : List ι) (h : find d (acc ++ xs) = none) :
    m.run (wait acc) xs = (wait (acc ++ xs), []) := by
  induction xs generalizing acc with
  | nil => simp
  | cons x xs ih =>
    have hx : find d (acc ++ [x]) = none :=
      by
      have := h
      rw [List.append_cons] at this
      exact find_eq_none_of_append this
    have hrest := ih (acc ++ [x]) (by simpa using h)
    simp [run_cons, hstep, hx, hrest]

/-- When the delimiter is complete, what stands before it is finished and the run goes on
behind it. -/
theorem run_scan_some
    (hstep : ∀ acc x, m.step (wait acc) x = match find d (acc ++ [x]) with
      | none => (wait (acc ++ [x]), [])
      | some e => fin ((acc ++ [x]).take e))
    (acc xs : List ι) {e : ℕ} (hacc : find d acc = none) (h : find d (acc ++ xs) = some e) :
    m.run (wait acc) xs =
      ((m.run (fin ((acc ++ xs).take e)).1 ((acc ++ xs).drop (e + d.length))).1,
        (fin ((acc ++ xs).take e)).2 ++
          (m.run (fin ((acc ++ xs).take e)).1 ((acc ++ xs).drop (e + d.length))).2) := by
  induction xs generalizing acc with
  | nil => simp [hacc] at h
  | cons x xs ih =>
    cases hx : find d (acc ++ [x]) with
    | none =>
      have hrest := ih (acc ++ [x]) hx (by simpa using h)
      simp only [List.append_assoc, List.singleton_append] at hrest
      simp [run_cons, hstep, hx, hrest]
    | some k =>
      have hk : k = e := by
        have := find_append xs hx
        simp only [List.append_assoc, List.singleton_append] at this
        exact Option.some.inj (this.symm.trans h)
      subst hk
      have hend := find_concat hacc hx
      have htake : (acc ++ x :: xs).take k = (acc ++ [x]).take k := by
        rw [show acc ++ x :: xs = (acc ++ [x]) ++ xs by simp,
          List.take_append_of_le_length (by simp; omega)]
      have hdrop : (acc ++ x :: xs).drop (k + d.length) = xs := by
        rw [hend, show acc ++ x :: xs = (acc ++ [x]) ++ xs by simp,
          List.drop_left' (by simp)]
      rw [run_cons, hstep, hx, htake, hdrop]

end Scan

section Count

variable (data : ℕ → List ι → σ) (fin : List ι → σ × List ο)

/-- A counting state that gets fewer inputs than it waits for has taken all of them and waits for
the rest. -/
theorem run_count_lt
    (hstep : ∀ n acc x, m.step (data (n + 1) acc) x =
      if n = 0 then fin (acc ++ [x]) else (data n (acc ++ [x]), []))
    (n : ℕ) (acc xs : List ι) (h : xs.length < n) :
    m.run (data n acc) xs = (data (n - xs.length) (acc ++ xs), []) := by
  induction xs generalizing n acc with
  | nil => simp
  | cons x xs ih =>
    obtain ⟨k, rfl⟩ : ∃ k, n = k + 1 := ⟨n - 1, by simp at h; omega⟩
    have hk : k ≠ 0 := by simp at h; omega
    have hrest := ih k (acc ++ [x]) (by simpa using h)
    simp [run_cons, hstep, hk, hrest]

/-- The last awaited symbol finishes the collection and the run goes on behind it. -/
theorem run_count_le
    (hstep : ∀ n acc x, m.step (data (n + 1) acc) x =
      if n = 0 then fin (acc ++ [x]) else (data n (acc ++ [x]), []))
    (n : ℕ) (acc xs : List ι) (hn : 0 < n) (h : n ≤ xs.length) :
    m.run (data n acc) xs =
      ((m.run (fin (acc ++ xs.take n)).1 (xs.drop n)).1,
        (fin (acc ++ xs.take n)).2 ++ (m.run (fin (acc ++ xs.take n)).1 (xs.drop n)).2) := by
  induction xs generalizing n acc with
  | nil => simp at h; omega
  | cons x xs ih =>
    obtain ⟨k, rfl⟩ : ∃ k, n = k + 1 := ⟨n - 1, by omega⟩
    by_cases hk : k = 0
    · subst hk
      simp [run_cons, hstep]
    · have hrest := ih k (acc ++ [x]) (by omega) (by simpa using h)
      simp [run_cons, hstep, hk, hrest]

end Count

end Mealy

end PkuyoProxy.Lib

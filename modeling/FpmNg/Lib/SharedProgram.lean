/-
Programs over shared memory, one access at a time.

A program is the tree of its accesses: what it does next, and how it goes on for
every value it may read. An interleaving runs one access of one program after
the other; `access` is that step. What a program does when nobody interferes is
`run`, and most of what one wants to know about an interleaving is known from
`run` and from which locations a program touches: a program that only reads is
as good as run at once while the locations it reads stand still
(`Reads.run_congr`), and a program that only writes in its own part of the
memory leaves the rest alone (`Writes.run_other`).

The second half is the part of the C library such programs are made of: copying,
filling, storing and loading a row of locations, and comparing one with a string.
-/
import Mathlib.Data.List.Basic

open List Function

namespace SharedProgram

/-- A program over locations `L` that hold values `V`. -/
inductive Prog (L V α : Type) : Type where
  | ret (a : α)
  | read (l : L) (k : V → Prog L V α)
  | write (l : L) (v : V) (k : Prog L V α)
  | cas (l : L) (old new : V) (k : Bool → Prog L V α)

variable {L V α β γ : Type}

variable {p : Prog L V α} {R : L → Prop} {W : L → Prop}

namespace Prog

def bind : Prog L V α → (α → Prog L V β) → Prog L V β
  | ret a, f => f a
  | read l k, f => read l fun v => (k v).bind f
  | write l v k, f => write l v (k.bind f)
  | cas l old new k, f => cas l old new fun b => (k b).bind f

section Execution

variable [DecidableEq L] [DecidableEq V]

def access : Prog L V α → (L → V) → Prog L V α × (L → V)
  | ret a, m => (ret a, m)
  | read l k, m => (k (m l), m)
  | write l v k, m => (k, update m l v)
  | cas l old new k, m =>
    if m l = old then (k true, update m l new) else (k false, m)

def run : Prog L V α → (L → V) → α × (L → V)
  | ret a, m => (a, m)
  | read l k, m => run (k (m l)) m
  | write l v k, m => run k (update m l v)
  | cas l old new k, m =>
    if m l = old then run (k true) (update m l new) else run (k false) m

@[simp] lemma run_ret (a : α) (m : L → V) : run (ret a : Prog L V α) m = (a, m) := rfl

@[simp] lemma run_read (l : L) (k : V → Prog L V α) (m : L → V) :
    run (read l k) m = run (k (m l)) m := rfl

@[simp] lemma run_write (l : L) (v : V) (k : Prog L V α) (m : L → V) :
    run (write l v k) m = run k (update m l v) := rfl

lemma run_bind (p : Prog L V α) (f : α → Prog L V β) (m : L → V) :
    run (p.bind f) m = run (f (run p m).1) (run p m).2 := by
  induction p generalizing m with
  | ret a => rfl
  | read l k ih => exact ih (m l) m
  | write l v k ih => exact ih (update m l v)
  | cas l old new k ih =>
    simp only [bind, run]
    split
    · exact ih true _
    · exact ih false _

end Execution

/-! ## What a program touches -/

/-- The program only reads, and only where `R` holds. -/
def Reads (R : L → Prop) : Prog L V α → Prop
  | ret _ => True
  | read l k => R l ∧ ∀ v, (k v).Reads R
  | write _ _ _ => False
  | cas _ _ _ _ => False

/-- The program writes only where `W` holds, and swaps nothing. -/
def Writes (W : L → Prop) : Prog L V α → Prop
  | ret _ => True
  | read _ k => ∀ v, (k v).Writes W
  | write l _ k => W l ∧ k.Writes W
  | cas _ _ _ _ => False

lemma Reads.bind {f : α → Prog L V β} (hp : p.Reads R) (hf : ∀ a, (f a).Reads R) :
    (p.bind f).Reads R := by
  induction p with
  | ret a => exact hf a
  | read l k ih => exact ⟨hp.1, fun v => ih v (hp.2 v)⟩
  | write l v k ih | cas l old new k ih => exact hp.elim

lemma Writes.bind {f : α → Prog L V β} (hp : p.Writes W) (hf : ∀ a, (f a).Writes W) :
    (p.bind f).Writes W := by
  induction p with
  | ret a => exact hf a
  | read l k ih => exact fun v => ih v (hp v)
  | write l v k ih => exact ⟨hp.1, ih hp.2⟩
  | cas l old new k ih => exact hp.elim

lemma Writes.mono {W W' : L → Prop} (hW : ∀ l, W l → W' l) (h : p.Writes W) : p.Writes W' := by
  induction p with
  | ret a => trivial
  | read l k ih => exact fun v => ih v (h v)
  | write l v k ih => exact ⟨hW l h.1, ih h.2⟩
  | cas l old new k ih => exact h.elim

lemma Reads.writes {R W : L → Prop} (h : p.Reads R) : p.Writes W := by
  induction p with
  | ret a => trivial
  | read l k ih => exact fun v => ih v (h.2 v)
  | write l v k ih | cas l old new k ih => exact h.elim

variable [DecidableEq L] [DecidableEq V]

lemma Reads.run_mem (h : p.Reads R) (m : L → V) : (run p m).2 = m := by
  induction p with
  | ret a => rfl
  | read l k ih => exact ih (m l) (h.2 (m l))
  | write l v k ih => exact h.elim
  | cas l old new k ih => exact h.elim

theorem Reads.run_congr (h : p.Reads R) {m m' : L → V} (hm : ∀ l, R l → m l = m' l) :
    (run p m).1 = (run p m').1 := by
  induction p with
  | ret a => rfl
  | read l k ih =>
    rw [run_read, run_read, hm l h.1]
    exact ih (m' l) (h.2 (m' l))
  | write l v k ih => exact h.elim
  | cas l old new k ih => exact h.elim

theorem Writes.run_other (h : p.Writes W) (m : L → V) {l : L} (hl : ¬ W l) :
    (run p m).2 l = m l := by
  induction p generalizing m with
  | ret a => rfl
  | read l' k ih => exact ih (m l') (h (m l')) m
  | write l' v k ih =>
    have hne : l ≠ l' := fun heq => hl (heq ▸ h.1)
    rw [run_write, ih h.2]
    exact update_of_ne hne ..
  | cas l' old new k ih => exact h.elim

end Prog

open Prog

/-! ## Rows of locations -/

variable {at_ : ℕ → L}

section Rows

/-- `memcpy()` between two parts of the shared memory. -/
def copy (dst src : γ → L) : List γ → Prog L V Unit
  | [] => ret ()
  | x :: xs => read (src x) fun v => write (dst x) v (copy dst src xs)

/-- `memset()`. -/
def fill (at_ : γ → L) (v : V) : List γ → Prog L V Unit
  | [] => ret ()
  | x :: xs => write (at_ x) v (fill at_ v xs)

/-- `memcpy()` from a private buffer, to the locations from `j` on. -/
def store (at_ : ℕ → L) : List V → ℕ → Prog L V Unit
  | [], _ => ret ()
  | v :: vs, j => write (at_ j) v (store at_ vs (j + 1))

/-- `memcpy()` to a private buffer: `n` locations from `j` on. -/
def load (at_ : ℕ → L) : ℕ → ℕ → Prog L V (List V)
  | 0, _ => ret []
  | n + 1, j => read (at_ j) fun v => (load at_ n (j + 1)).bind fun vs => ret (v :: vs)

/-- `strncmp()` with the string `t`, from position `j` on, at most `n` positions:
whether no difference was found. The string ends with a zero. -/
def compare (at_ : ℕ → L) (t : List ℕ) : ℕ → ℕ → Prog L ℕ Bool
  | 0, _ => ret true
  | n + 1, j => read (at_ j) fun b =>
    if b ≠ t.getD j 0 then ret false
    else if b = 0 then ret true
    else compare at_ t n (j + 1)

lemma copy_writes {dst src : γ → L} (xs : List γ) (h : ∀ x ∈ xs, W (dst x)) :
    (copy dst src xs : Prog L V Unit).Writes W := by
  induction xs with
  | nil => trivial
  | cons x xs ih =>
    exact fun v => ⟨h x mem_cons_self, ih (fun y hy => h y (mem_cons_of_mem x hy))⟩

lemma fill_writes {at_ : γ → L} {v : V} (xs : List γ) (h : ∀ x ∈ xs, W (at_ x)) :
    (fill at_ v xs).Writes W := by
  induction xs with
  | nil => trivial
  | cons x xs ih =>
    exact ⟨h x mem_cons_self, ih (fun y hy => h y (mem_cons_of_mem x hy))⟩

lemma store_writes (vs : List V) (j : ℕ) (h : ∀ k, j ≤ k → W (at_ k)) :
    (store at_ vs j).Writes W := by
  induction vs generalizing j with
  | nil => trivial
  | cons v vs ih => exact ⟨h j (Nat.le_refl j), ih (j + 1) (fun k hk => h k (by omega))⟩

lemma load_reads (n j : ℕ) (h : ∀ k, R (at_ k)) : (load at_ n j : Prog L V (List V)).Reads R := by
  induction n generalizing j with
  | zero => trivial
  | succ n ih => exact ⟨h j, fun v => (ih (j + 1)).bind fun _ => trivial⟩

lemma compare_reads {t : List ℕ} (n j : ℕ) (h : ∀ k, R (at_ k)) :
    (compare at_ t n j).Reads R := by
  induction n generalizing j with
  | zero => trivial
  | succ n ih =>
    refine ⟨h j, fun b => ?_⟩
    dsimp only
    split
    · trivial
    · split
      · trivial
      · exact ih (j + 1)

variable [DecidableEq L] [DecidableEq V]

/-- Copied between disjoint rows, the target holds what the source held. -/
lemma copy_run (dst src : γ → L) (xs : List γ) (hinj : ∀ x ∈ xs, ∀ y ∈ xs, dst x = dst y → x = y)
    (hdis : ∀ x ∈ xs, ∀ y ∈ xs, dst x ≠ src y) (m : L → V) {x : γ} (hx : x ∈ xs) :
    (run (copy dst src xs) m).2 (dst x) = m (src x) := by
  induction xs generalizing m with
  | nil => simp at hx
  | cons y ys ih =>
    rw [copy, run_read, run_write]
    by_cases hmem : x ∈ ys
    · rw [ih (fun a ha b hb => hinj a (mem_cons_of_mem y ha) b (mem_cons_of_mem y hb))
        (fun a ha b hb => hdis a (mem_cons_of_mem y ha) b (mem_cons_of_mem y hb)) _ hmem]
      exact update_of_ne (fun h => hdis y mem_cons_self x hx h.symm) ..
    · have hxy : x = y := by
        rcases mem_cons.mp hx with h | h
        · exact h
        · exact absurd h hmem
      -- the rest of the row is copied elsewhere
      have hwrites : (copy dst src ys : Prog L V Unit).Writes (fun l => ∃ z ∈ ys, dst z = l) :=
        copy_writes ys (fun z hz => ⟨z, hz, rfl⟩)
      have hout := hwrites.run_other (update m (dst y) (m (src y)))
        (by
          rintro ⟨z, hz, hzx⟩
          exact hmem (hinj z (mem_cons_of_mem y hz) x hx hzx ▸ hz))
      rw [hout, hxy]
      exact update_self ..

lemma store_run (at_ : ℕ → L) (hinj : ∀ i j, at_ i = at_ j → i = j) (vs : List V) (j : ℕ)
    (m : L → V) {k : ℕ} {v : V} (hk : vs[k]? = some v) :
    (run (store at_ vs j) m).2 (at_ (j + k)) = v := by
  induction vs generalizing j m k with
  | nil => simp at hk
  | cons w vs ih =>
    cases k with
    | zero =>
      have hout := (store_writes (W := fun l => ∃ i, j + 1 ≤ i ∧ at_ i = l) vs (j + 1)
        (fun i hi => ⟨i, hi, rfl⟩)).run_other (update m (at_ j) w)
        (l := at_ j) (by
          rintro ⟨i, hi, heq⟩
          have := hinj _ _ heq
          omega)
      show (run (store at_ vs (j + 1)) (update m (at_ j) w)).2 (at_ j) = v
      rw [hout, update_self]
      simpa using hk
    | succ k =>
      have hnext := ih (j + 1) (update m (at_ j) w) (by simpa using hk)
      rw [show j + (k + 1) = j + 1 + k by omega]
      exact hnext

lemma load_run (at_ : ℕ → L) (n j : ℕ) (m : L → V) :
    (run (load at_ n j) m).1 = (range n).map (fun k => m (at_ (j + k))) := by
  induction n generalizing j with
  | zero => rfl
  | succ n ih =>
    rw [load, run_read, run_bind, run_ret, ih, range_succ_eq_map, map_cons, map_map]
    simp only [Nat.add_zero, cons.injEq, true_and]
    apply map_congr_left
    intro k _
    simp only [comp_apply]
    rw [show j + 1 + k = j + (k + 1) by omega]

/-- **Comparing with a row that holds a string.** If one of the two strings ends
within the `n` positions, the comparison says whether they are equal. -/
theorem compare_run (at_ : ℕ → L) {m : L → ℕ} (pre u t : List ℕ) (n : ℕ)
    (hu : ∀ b ∈ u, b ≠ 0) (ht : ∀ b ∈ t, b ≠ 0)
    (hrow : ∀ j, j ≤ (pre ++ u).length → m (at_ j) = (pre ++ u).getD j 0)
    (hn : u.length < n ∨ t.length < n) :
    (run (compare at_ (pre ++ t) n pre.length) m).1 = decide (u = t) := by
  induction n generalizing pre u t with
  | zero => omega
  | succ n ih =>
    have hhead : m (at_ pre.length) = u.headD 0 := by
      rw [hrow pre.length (by simp)]
      cases u with
      | nil | cons c u => simp
    have hnext : (pre ++ t).getD pre.length 0 = t.headD 0 := by
      cases t with
      | nil | cons c t => simp
    rw [compare, run_read, hhead, hnext]
    cases u with
    | nil =>
      cases t with
      | nil => rfl
      | cons d t =>
        have hd : (0 : ℕ) ≠ d := (ht d mem_cons_self).symm
        rw [headD_nil, headD_cons, if_pos hd]
        simp
    | cons c u =>
      have hc : c ≠ 0 := hu c mem_cons_self
      cases t with
      | nil =>
        rw [headD_nil, headD_cons, if_pos hc]
        simp
      | cons d t =>
        rw [headD_cons, headD_cons]
        by_cases hcd : c = d
        · -- the same byte: on to the next position
          subst hcd
          rw [if_neg (by simp), if_neg hc]
          have hrest := ih (pre ++ [c]) u t (fun b hb => hu b (mem_cons_of_mem c hb))
            (fun b hb => ht b (mem_cons_of_mem c hb)) (by simpa using hrow) (by
              simp only [length_cons] at hn
              omega)
          simpa using hrest
        · rw [if_pos hcd]
          simp [hcd]

end Rows

end SharedProgram

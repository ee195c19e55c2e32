/-
The connection counter of the tracker.

`live` is the number the accept gates compare with `http.max_connections`. Only an
accept raises it, by one; everything else leaves it or lowers it, and the answer of
`fpm_http_direct_conns_may_accept()` is about the counter it leaves behind.
-/
import FpmNg.ConnTrackerRun
import FpmNg.Lib.Fallible

namespace FpmNg.ConnTracker

open Fallible

/-! ## Links and the index -/

variable (s : Tracker)

lemma set_next_live (a : ℕ) (v : Option ℕ) :
    Yields (s.set_next a v) fun s' => s'.live = s.live :=
  Yields.map fun _ _ => rfl

lemma set_prev_live (a : ℕ) (v : Option ℕ) :
    Yields (s.set_prev a v) fun s' => s'.live = s.live :=
  Yields.map fun _ _ => rfl

lemma set_hash_next_live (a : ℕ) (v : Option ℕ) :
    Yields (s.set_hash_next a v) fun s' => s'.live = s.live :=
  Yields.map fun _ _ => rfl

lemma unlink_live (a : ℕ) : Yields (unlink s a) fun s' => s'.live = s.live := by
  have hprev : Yields (unlink_prev s a) fun s' => s'.live = s.live := by
    unfold unlink_prev
    split
    · exact set_next_live s _ _
    · exact .of_some rfl
  have hnext : ∀ s : Tracker, Yields (unlink_next s a) fun s' => s'.live = s.live := by
    intro s
    unfold unlink_next
    split
    · exact set_prev_live s _ _
    · exact .of_some rfl
  refine .bind_any fun _ => hprev.bind fun s1 h1 => (hnext s1).bind fun s2 h2 => ?_
  refine (set_next_live s2 a none).bind fun s3 h3 => (set_prev_live s3 a none).imp fun s' h => ?_
  rw [h, h3, h2, h1]

lemma link_front_live (a : ℕ) :
    Yields (link_front s a) fun s' => s'.live = s.live := by
  have hback : ∀ s : Tracker, Yields (link_back s a) fun s' => s'.live = s.live := by
    intro s
    unfold link_back
    split
    · exact set_prev_live s _ _
    · exact .of_some rfl
  refine (set_prev_live s a none).bind fun s1 h1 => (set_next_live s1 a s1.list).bind fun s2 h2 => ?_
  refine (hback s2).bind fun s3 h3 => .of_some ?_
  rw [← h1, ← h2, ← h3]

lemma grow_chain_live (count fuel : ℕ) (p : Option ℕ) (r : Tracker × (ℕ → Option ℕ)) :
    Yields (grow_chain count fuel p r) fun r' => r'.1.live = r.1.live := by
  induction fuel generalizing p r with
  | zero =>
    cases p with
    | none => exact .of_some rfl
    | some a => exact .of_none
  | succ fuel ih =>
    cases p with
    | none => exact .of_some rfl
    | some a =>
      refine .bind_any fun c => (set_hash_next_live r.1 a _).bind fun s1 h1 => ?_
      exact (ih _ _).imp fun r' h => h.trans h1

lemma grow_buckets_live (count : ℕ) (s : Tracker) (n : ℕ) :
    Yields (grow_buckets count s n) fun r => r.1.live = s.live := by
  induction n with
  | zero => exact .of_some rfl
  | succ n ih =>
    exact ih.bind fun r hr => (grow_chain_live count _ _ _).imp fun r' h => h.trans hr

lemma index_insert_live (a : ℕ) (ok : Bool) :
    Yields (index_insert s a ok) fun r => r.2.live = s.live := by
  have hgrow : Yields (if s.bucket_count ≤ s.live then index_grow s ok else some s) fun s' =>
      s'.live = s.live := by
    split
    · unfold index_grow
      generalize (if s.bucket_count ≠ 0 then s.bucket_count * 2 % 18446744073709551616
        else INDEX_INITIAL_BUCKETS) = count
      dsimp only
      split
      · exact .of_some rfl
      split
      · exact .of_some rfl
      · refine (grow_buckets_live count s _).bind fun r hr => .of_some ?_
        exact hr
    · exact .of_some rfl
  refine hgrow.bind fun s1 h1 => ?_
  split
  · exact .of_some h1
  · refine .bind_any fun c => (set_hash_next_live s1 a _).bind fun s2 h2 => .of_some ?_
    exact h2.trans h1

lemma index_remove_live (a : ℕ) :
    Yields (index_remove s a) fun s' => s'.live = s.live := by
  have hstore : ∀ (v v' : Option ℕ) (p : Place),
      Yields (if v.isSome then s.store v' p else some s) fun s' => s'.live = s.live := by
    intro v v' p
    split
    · cases p with
      | head i => exact .of_some rfl
      | field b => exact set_hash_next_live s b v'
    · exact .of_some rfl
  refine .bind_any fun c => .bind_any fun p => .bind_any fun v => ?_
  exact (hstore v _ p).bind fun s1 h1 => (set_hash_next_live s1 a none).imp fun s' h => h.trans h1

/-! ## Records go -/

lemma forget_live (a : ℕ) : Yields (forget s a) fun s' => s'.live ≤ s.live := by
  refine (unlink_live s a).bind fun s1 h1 => (index_remove_live s1 a).bind fun s2 h2 => ?_
  refine .bind_any fun c => .of_some ?_
  simp only [Tracker.free]
  omega

lemma sweep_all_live : Yields (sweep_all s) fun s' => s'.live ≤ s.live := by
  have hloop : ∀ (fuel : ℕ) (p : Option ℕ) (s : Tracker),
      Yields (sweep_all_loop fuel p s) fun s' => s'.live ≤ s.live := by
    intro fuel
    induction fuel with
    | zero =>
      intro p s
      cases p with
      | none => exact .of_some le_rfl
      | some a => exact .of_none
    | succ fuel ih =>
      intro p s
      cases p with
      | none => exact .of_some le_rfl
      | some a =>
        refine .bind_any fun c => ?_
        have hone : Yields (if released s c then forget s a else some s) fun s' =>
            s'.live ≤ s.live := by
          split
          · exact forget_live s a
          · exact .of_some le_rfl
        exact hone.bind fun s1 h1 => (ih _ s1).imp fun s' h => le_trans h h1
  exact hloop _ _ s

lemma sweep_live : Yields (sweep s) fun s' => s'.live ≤ s.live := by
  have hloop : ∀ (budget : ℕ) (s : Tracker),
      Yields (sweep_loop budget s) fun s' => s'.live ≤ s.live := by
    intro budget
    induction budget with
    | zero => exact fun s => .of_some le_rfl
    | succ budget ih =>
      intro s
      unfold sweep_loop
      split
      · exact .of_some le_rfl
      · rename_i a htail
        refine .bind_any fun c => ?_
        split
        · exact (forget_live s a).bind fun s1 h1 => (ih s1).imp fun s' h => le_trans h h1
        · refine (unlink_live s a).bind fun s1 h1 => (link_front_live s1 a).bind fun s2 h2 => ?_
          exact (ih s2).imp fun s' h => by omega
  exact hloop _ s

theorem may_accept_live (lim : Limits) (s : Tracker) :
    Yields (may_accept lim s) fun r => r.2.live ≤ s.live ∧
      (r.1 = true → 0 < lim.max_connections → (r.2.live : ℤ) < lim.max_connections) ∧
      (r.1 = false → 0 < lim.max_connections) := by
  unfold may_accept
  split
  · rename_i hoff
    exact .of_some ⟨le_rfl, fun _ hon => absurd hon (by omega), nofun⟩
  rename_i hon
  split
  · rename_i hroom
    exact .of_some ⟨le_rfl, fun _ _ => hroom, nofun⟩
  · refine (sweep_all_live s).bind fun s1 h1 => .of_some ⟨h1, ?_, fun _ => by omega⟩
    intro hroom _
    exact of_decide_eq_true hroom

lemma may_accept_of_room {lim : Limits} {s : Tracker}
    (h : 0 < lim.max_connections → (s.live : ℤ) < lim.max_connections) :
    may_accept lim s = some (true, s) := by
  unfold may_accept
  split
  · rfl
  · rename_i hon
    rw [if_pos (h (by omega))]

/-! ## The handlers -/

theorem accepted_live (lim : Limits) (s : Tracker) (bev a now : ℕ) (ok : Alloc) :
    Yields (accepted lim s bev a now ok) fun s' => s'.live ≤ s.live + 1 := by
  unfold accepted
  split
  · exact .of_some (Nat.le_succ _)
  refine (sweep_live s).bind fun s1 h1 => ?_
  have hless : s1.live ≤ s.live + 1 := Nat.le_succ_of_le h1
  split
  · exact .of_some hless
  dsimp only
  split
  · exact .of_some hless
  split
  · exact .of_some hless
  refine (index_insert_live _ a ok.buckets).bind fun r hr => ?_
  have hr' : r.2.live = s1.live := hr
  split
  · exact .of_some (le_trans (le_of_eq hr') hless)
  refine (link_front_live r.2 a).bind fun s2 h2 => ?_
  have hone : s2.live + 1 ≤ s.live + 1 := by omega
  split
  · exact (forget_live _ a).imp fun s' h => le_trans h hone
  split
  · exact .of_some hone
  split
  · exact (forget_live _ a).imp fun s' h => le_trans h hone
  · exact .of_some hone

lemma check_peer_live (lim : Limits) (s : Tracker) (a : ℕ) (drop : Bool) :
    Yields (check_peer lim s a drop) fun r => r.2.live ≤ s.live := by
  -- counting resolves addresses and leaves the number of records alone
  have hcount : ∀ (self fuel : ℕ) (p : Option ℕ) (n : ℕ) (s : Tracker),
      Yields (peer_count_loop self fuel p n s) fun r => r.2.live = s.live := by
    intro self fuel
    induction fuel with
    | zero =>
      intro p n s
      cases p with
      | none => exact .of_some rfl
      | some b => exact .of_none
    | succ fuel ih =>
      intro p n s
      cases p with
      | none => exact .of_some rfl
      | some b =>
        have hone : Yields (if b = self then some s else (resolve s b).map (·.2)) fun s' =>
            s'.live = s.live := by
          split
          · exact .of_some rfl
          · exact .map (.bind_any fun c => .of_some rfl)
        refine hone.bind fun s1 h1 => .bind_any fun c => .bind_any fun me => ?_
        exact (ih _ _ s1).imp fun r h => h.trans h1
  refine .bind_any fun c => ?_
  split
  · exact .of_some le_rfl
  dsimp only
  split
  · exact .of_some le_rfl
  refine (sweep_all_live _).bind fun s1 h1 => ?_
  have hcounted : Yields (peer_count s1 a) fun r => r.2.live = s1.live :=
    .bind_any fun c => hcount _ _ _ _ s1
  refine hcounted.bind fun r hr => ?_
  have hle : r.2.live ≤ s.live := le_trans (le_of_eq hr) h1
  split
  · exact .of_some hle
  refine .bind_any fun c => ?_
  split
  · exact .of_some hle
  · exact (forget_live _ a).bind fun s2 h2 => .of_some (le_trans h2 hle)

lemma arm_deadline_live (a : ℕ) (ok : Bool) :
    Yields (arm_deadline s a ok) fun s' => s'.live ≤ s.live := by
  refine .bind_any fun c => ?_
  split
  · exact .of_none
  split
  · exact forget_live s a
  · exact .of_some le_rfl

lemma fire_live (lim : Limits) (s : Tracker) (a : ℕ) (read ok : Bool) (w : Watch) :
    Yields (fire lim s a read ok w) fun s' => s'.live ≤ s.live := by
  cases w with
  | pickup =>
    refine Yields.bind (P := fun r => r.2.live = s.live) (.bind_any fun c => .of_some rfl) ?_
    intro r hr
    dsimp only
    split
    · exact (forget_live r.2 a).imp fun s' h => le_trans h (le_of_eq hr)
    refine (check_peer_live lim r.2 a true).bind fun r1 h1 => ?_
    have hle : r1.2.live ≤ s.live := le_trans h1 (le_of_eq hr)
    split
    · exact .of_some hle
    · unfold watch_eof
      refine .bind_any fun c => ?_
      split
      · exact (forget_live r1.2 a).imp fun s' h => le_trans h hle
      · exact .of_some hle
  | eof =>
    refine .bind_any fun c => ?_
    split
    · exact .of_some le_rfl
    · exact forget_live s a
  | first_byte =>
    refine .bind_any fun c => ?_
    split
    · exact forget_live _ a
    split
    · exact arm_deadline_live _ a ok
    · split
      · exact forget_live _ a
      · exact .of_some le_rfl
    · exact forget_live _ a

lemma request_live (lim : Limits) (s : Tracker) (bev : ℕ) :
    Yields (request lim s bev) fun r => r.2.live ≤ s.live := by
  have hserve : ∀ (s : Tracker) (a : ℕ), Yields (serve lim s a) fun s' => s'.live ≤ s.live := by
    intro s a
    refine .bind_any fun c => ?_
    split
    · exact forget_live _ a
    · refine (unlink_live _ a).bind fun s1 h1 => (link_front_live s1 a).imp fun s' h => ?_
      exact le_of_eq (h.trans h1)
  refine .bind_any fun found => ?_
  split
  · exact .of_some le_rfl
  refine .bind_any fun c => ?_
  dsimp only
  split
  · exact (forget_live _ _).bind fun s1 h1 => .of_some h1
  refine Yields.bind (P := fun r => r.2.live = s.live) (.bind_any fun c => .of_some rfl) ?_
  intro r hr
  refine (check_peer_live lim r.2 _ false).bind fun r1 h1 => ?_
  have hle : r1.2.live ≤ s.live := le_trans h1 (le_of_eq hr)
  split
  · exact .of_some hle
  · exact (hserve r1.2 _).bind fun s2 h2 => .of_some (le_trans h2 hle)

lemma response_done_live (lim : Limits) (s : Tracker) (bev : ℕ) (ok : Bool) :
    Yields (response_done lim s bev ok) fun s' => s'.live ≤ s.live := by
  unfold response_done
  split
  · exact .of_some le_rfl
  refine .bind_any fun found => ?_
  split
  · exact .of_some le_rfl
  refine .bind_any fun c => ?_
  split
  · exact .of_some le_rfl
  refine Yields.bind (P := fun r => r.2.live = s.live) (.bind_any fun c => .of_some rfl) ?_
  intro r hr
  have hle : r.2.live ≤ s.live := le_of_eq hr
  dsimp only
  split
  · exact (forget_live r.2 _).imp fun s' h => le_trans h hle
  split
  · exact (arm_deadline_live r.2 _ ok).imp fun s' h => le_trans h hle
  split
  · exact (forget_live _ _).imp fun s' h => le_trans h hle
  · exact .of_some hle

def Event.other : Event → Bool
  | .accepted .. => false
  | _ => true

theorem step_live (lim : Limits) (s : Tracker) {e : Event} (h : e.other = true) :
    Yields (step lim s e) fun s' => s'.live ≤ s.live := by
  cases e with
  | accepted bev a now ok => simp [Event.other] at h
  | watch a read ok =>
    rw [step]
    split
    · exact .of_some le_rfl
    · exact fire_live lim s a read ok _
  | deadline a =>
    rw [step]
    split
    · exact .bind_any fun c => forget_live _ a
    · exact .of_some le_rfl
  | request bev =>
    rw [step]
    split
    · exact .of_some le_rfl
    · exact .map (request_live lim s bev)
  | response_done bev ok => exact response_done_live lim s bev ok
  | may_accept => exact .map ((may_accept_live lim s).imp fun r hr => hr.1)
  | sweep => exact sweep_live s
  | live_exact => exact .map ((sweep_all_live s).bind fun s1 h1 => .of_some h1)
  | bev b v => exact .of_some le_rfl

lemma step_accepted_live (lim : Limits) (s : Tracker) (bev a now : ℕ) (ok : Alloc) :
    Yields (step lim s (.accepted bev a now ok)) fun s' => s'.live ≤ s.live + 1 := by
  rw [step]
  split
  · exact .of_some (Nat.le_succ _)
  · exact accepted_live lim s bev a now ok

end FpmNg.ConnTracker

import Beirdobot.Auth.StateMachine
import Beirdobot.LinkedList.Spec

/-!
# The walks over the records

A lookup finds the first record of the nick on the server.  A sweep removes
records while it walks over them: it stands behind the records it kept, and what
is left of the list is what it has not seen.
-/

namespace Beirdobot.Auth

open Linked

variable {ι σ : Type}

/-! ## Lookups -/

section Lookup

variable [DecidableEq σ]

/-- A lookup from some record on finds the first match among the rest. -/
theorem lookupLoop_eq {s : Sessions ι σ} {seen rest : List ι} (h : Holds s.list (seen ++ rest))
    (server : σ) (nick : CString) (fuel : ℕ) {r : Option ι}
    (hr : lookupLoop s server nick fuel rest.head? = some r) :
    r = rest.find? fun x ↦ (s.auth x).belongsTo server nick := by
  induction rest generalizing seen fuel with
  | nil =>
      rw [List.head?_nil, lookupLoop] at hr
      cases hr
      rfl
  | cons x rest ih =>
      cases fuel with
      | zero => cases hr
      | succ fuel =>
          rw [List.head?_cons, lookupLoop, h.next_eq] at hr
          split at hr
          · rename_i hx
            cases hr
            simp [hx]
          · rename_i hx
            rw [List.find?_cons, Bool.of_not_eq_true hx]
            have h' : Holds s.list ((seen ++ [x]) ++ rest) := by simpa using h
            exact ih h' fuel hr

/-- A lookup takes at most as many steps as there are records. -/
theorem lookupLoop_isSome {s : Sessions ι σ} {seen rest : List ι}
    (h : Holds s.list (seen ++ rest)) (server : σ) (nick : CString) {fuel : ℕ}
    (hf : rest.length ≤ fuel) : (lookupLoop s server nick fuel rest.head?).isSome := by
  induction rest generalizing seen fuel with
  | nil => simp [lookupLoop]
  | cons x rest ih =>
      obtain ⟨fuel, rfl⟩ : ∃ n, fuel = n + 1 := ⟨fuel - 1, by simp at hf; omega⟩
      rw [List.head?_cons, lookupLoop, h.next_eq]
      split
      · rfl
      · have h' : Holds s.list ((seen ++ [x]) ++ rest) := by simpa using h
        exact ih h' (by simpa using hf)

/-- The record a lookup finds. -/
def firstOf (s : Sessions ι σ) (xs : List ι) (server : σ) (nick : CString) : Option ι :=
  xs.find? fun x ↦ (s.auth x).belongsTo server nick

theorem firstOf_belongsTo {s : Sessions ι σ} {xs : List ι} {server : σ} {nick : CString} {x : ι}
    (h : firstOf s xs server nick = some x) : (s.auth x).belongsTo server nick = true := by
  unfold firstOf at h
  simpa using List.find?_some h

theorem lookup_eq {s : Sessions ι σ} {xs : List ι} (h : Holds s.list xs) {server : σ}
    {nick : CString} {fuel : ℕ} {r : Option ι} (hr : lookup fuel s server nick = some r) :
    r = firstOf s xs server nick := by
  unfold lookup at hr
  obtain ⟨list, hlist, hr⟩ := Option.bind_eq_some_iff.mp hr
  unfold linkedListLock at hlist
  split at hlist
  · cases hlist
  · cases hlist
    let s' : Sessions ι σ := { s with list := { s.list with mutex := true } }
    have h' : Holds s'.list ([] ++ xs) := h.setMutex true
    change lookupLoop s' server nick fuel s'.list.head = some r at hr
    rw [h'.head_eq] at hr
    exact lookupLoop_eq h' server nick fuel hr

theorem lookup_isSome {s : Sessions ι σ} {xs : List ι} (h : Holds s.list xs)
    (hm : s.list.mutex = false) (server : σ) (nick : CString) {fuel : ℕ}
    (hf : xs.length ≤ fuel) : (lookup fuel s server nick).isSome := by
  let s' : Sessions ι σ := { s with list := { s.list with mutex := true } }
  have h' : Holds s'.list ([] ++ xs) := h.setMutex true
  have key := lookupLoop_isSome h' server nick hf
  rw [← h.head_eq] at key
  simpa [lookup, linkedListLock, hm] using key

theorem authenticateCheck_eq {s : Sessions ι σ} {xs : List ι} (h : Holds s.list xs) {server : σ}
    {nick : CString} {fuel : ℕ} (hc : authenticateCheck fuel s server nick = some true) :
    ∃ x, firstOf s xs server nick = some x ∧ (s.auth x).state = .accepted := by
  unfold authenticateCheck at hc
  obtain ⟨r, hr, hc⟩ := Option.bind_eq_some_iff.mp hc
  cases r with
  | none => cases hc
  | some x => exact ⟨x, (lookup_eq h hr).symm, by simpa using hc⟩

theorem authenticateCheck_isSome {s : Sessions ι σ} {xs : List ι} (h : Holds s.list xs)
    (hm : s.list.mutex = false) (server : σ) (nick : CString) {fuel : ℕ}
    (hf : xs.length ≤ fuel) : (authenticateCheck fuel s server nick).isSome := by
  obtain ⟨r, hr⟩ := Option.isSome_iff_exists.mp (lookup_isSome h hm server nick hf)
  simp only [authenticateCheck, hr, Option.bind_eq_bind, Option.bind_some]
  cases r <;> rfl

end Lookup

/-! ## The sweep -/

/-- The states in which a record only waits to be removed. -/
def AuthState.Ended (a : AuthState) : Prop := a = .rejected ∨ a = .timedout ∨ a = .disconnect

instance (a : AuthState) : Decidable a.Ended := by unfold AuthState.Ended; infer_instance

/-- The records that a sweep removes. -/
def AuthData.Swept (now : ℕ) (auth : AuthData σ) : Prop :=
  auth.state.Ended ∨ auth.wakeTime ≠ 0 ∧ auth.wakeTime ≤ now

instance (now : ℕ) (auth : AuthData σ) : Decidable (auth.Swept now) := by
  unfold AuthData.Swept; infer_instance

/-- What a sweep leaves of a list. -/
def kept (now : ℕ) (s : Sessions ι σ) (xs : List ι) : List ι :=
  xs.filter fun x ↦ ¬ (s.auth x).Swept now

variable [DecidableEq ι]

theorem timeOut_list (now : ℕ) (s : Sessions ι σ) (item : ι) :
    (timeOut now s item).list = s.list ∧ (timeOut now s item).live = s.live := by
  unfold timeOut
  dsimp only
  split <;> exact ⟨rfl, rfl⟩

theorem timeOut_auth (now : ℕ) (s : Sessions ι σ) {item x : ι} (hx : x ≠ item) :
    (timeOut now s item).auth x = s.auth x := by
  unfold timeOut
  dsimp only
  split
  · exact Function.update_of_ne hx ..
  · rfl

/-- The second `if` of the loop sees what `Swept` says. -/
theorem timeOut_ended (now : ℕ) (s : Sessions ι σ) (item : ι) :
    ((timeOut now s item).auth item).state.Ended ↔ (s.auth item).Swept now := by
  unfold timeOut AuthData.Swept
  dsimp only
  split
  · rename_i h
    simp [Sessions.transmit, Sessions.setAuth, AuthState.Ended, h.1, h.2.1]
  · rename_i h
    refine ⟨.inl, ?_⟩
    rintro (he | ⟨hw, hn⟩)
    · exact he
    · exact .inl (by simpa [hw, hn] using h)

theorem timeOut_of_not_swept {now : ℕ} {s : Sessions ι σ} {item : ι}
    (h : ¬ (s.auth item).Swept now) : timeOut now s item = s := by
  unfold timeOut
  dsimp only
  rw [if_neg]
  rintro ⟨hw, hn, -⟩
  exact h (.inr ⟨hw, hn⟩)

omit [DecidableEq ι] in
/-- After the records behind it, the walk stands on the first one of the rest. -/
theorem advance_eq {l : LinkedList ι} {seen rest : List ι} (h : Holds l (seen ++ rest)) :
    advance l seen.getLast? seen.getLast? = rest.head? := by
  rcases List.eq_nil_or_concat seen with rfl | ⟨seen, x, rfl⟩
  · exact h.head_eq
  · rw [List.concat_eq_append] at h ⊢
    rw [List.append_assoc] at h
    rw [List.getLast?_append, List.getLast?_singleton, Option.some_or]
    exact h.next_eq

/-- What the walk does to the records it has not seen. -/
theorem sweepLoop_eq (now : ℕ) {s : Sessions ι σ} {seen rest : List ι} {fuel : ℕ}
    (h : Holds s.list (seen ++ rest)) (hf : rest.length ≤ fuel) :
    ∃ s', sweepLoop now fuel s seen.getLast? rest.head? = some s' ∧
      Holds s'.list (seen ++ kept now s rest) ∧
      ∀ x, x ∉ rest ∨ x ∈ kept now s rest → s'.auth x = s.auth x ∧ s'.live x = s.live x := by
  induction rest generalizing s seen fuel with
  | nil => exact ⟨s, by simp [sweepLoop], by simpa [kept] using h, fun _ _ ↦ ⟨rfl, rfl⟩⟩
  | cons x rest ih =>
      obtain ⟨fuel, rfl⟩ : ∃ n, fuel = n + 1 := ⟨fuel - 1, by simp at hf; omega⟩
      have hxr : x ∉ rest := (List.nodup_cons.mp (List.nodup_append.mp h.nodup).2.1).1
      by_cases hx : (s.auth x).Swept now
      · have hsplit := h
        rw [← (timeOut_list now s x).1] at hsplit
        obtain ⟨l, hl, hholds, -⟩ := linkedListRemove_holds hsplit .locked (by simp)
        let s₁ : Sessions ι σ := { timeOut now s x with
          list := l, live := Function.update (timeOut now s x).live x false }
        have hsame : ∀ y, y ≠ x → s₁.auth y = s.auth y ∧ s₁.live y = s.live y := by
          intro y hy
          refine ⟨timeOut_auth now s hy, ?_⟩
          rw [← (timeOut_list now s x).2]
          exact Function.update_of_ne hy ..
        have hkept : kept now s₁ rest = kept now s rest := by
          refine List.filter_congr fun y hy ↦ ?_
          rw [(hsame y fun e ↦ hxr (e ▸ hy)).1]
        have hcons : kept now s (x :: rest) = kept now s rest :=
          List.filter_cons_of_neg (by simpa using hx)
        obtain ⟨s', he, hs', hframe⟩ := ih (s := s₁) hholds (by simpa using hf)
        rw [hkept] at hs'
        refine ⟨s', ?_, by rw [hcons]; exact hs', ?_⟩
        · rw [List.head?_cons, sweepLoop]
          dsimp only
          have hended := (timeOut_ended now s x).mpr hx
          unfold AuthState.Ended at hended
          rw [if_pos hended, hl, hsplit.prev_eq,
            ← he, ← advance_eq (l := l) hholds]
          rfl
        · intro y hy
          rw [hcons] at hy
          have hyx : y ≠ x := by
            rintro rfl
            rcases hy with hy | hy
            · simp at hy
            · exact hxr (List.mem_filter.mp hy).1
          have hy' : y ∉ rest ∨ y ∈ kept now s₁ rest := by
            rw [hkept]
            exact hy.imp_left fun hy hmem ↦ hy (List.mem_cons_of_mem _ hmem)
          exact ⟨(hframe y hy').1.trans (hsame y hyx).1, (hframe y hy').2.trans (hsame y hyx).2⟩
      · have hcons : kept now s (x :: rest) = x :: kept now s rest :=
          List.filter_cons_of_pos (by simpa using hx)
        have h' : Holds s.list ((seen ++ [x]) ++ rest) := by simpa using h
        obtain ⟨s', he, hs', hframe⟩ := ih h' (Nat.le_of_succ_le_succ hf)
        rw [← advance_eq h'] at he
        refine ⟨s', ?_, by rw [hcons]; simpa using hs', ?_⟩
        · rw [List.head?_cons, sweepLoop]
          dsimp only
          have hended := mt (timeOut_ended now s x).mp hx
          unfold AuthState.Ended at hended
          rw [if_neg hended, timeOut_of_not_swept hx, ← he]
          simp
        · intro y hy
          refine hframe y ?_
          rw [hcons] at hy
          by_cases hyx : y = x
          · exact .inl (hyx ▸ hxr)
          · simpa [hyx] using hy

/-- More fuel does not change the walk. -/
theorem sweepLoop_mono {now fuel fuel' : ℕ} (hle : fuel ≤ fuel') {s s' : Sessions ι σ}
    {prev item : Option ι} (h : sweepLoop now fuel s prev item = some s') :
    sweepLoop now fuel' s prev item = some s' := by
  induction fuel generalizing fuel' s prev item with
  | zero =>
      cases item with
      | none => simpa [sweepLoop] using h
      | some item => cases h
  | succ fuel ih =>
      cases item with
      | none => simpa [sweepLoop] using h
      | some item =>
          obtain ⟨fuel', rfl⟩ : ∃ n, fuel' = n + 1 := ⟨fuel' - 1, by omega⟩
          have hle' : fuel ≤ fuel' := by omega
          rw [sweepLoop] at h ⊢
          dsimp only at h ⊢
          split at h
          · rename_i hended
            rw [if_pos hended]
            obtain ⟨list, hlist, h⟩ := Option.bind_eq_some_iff.mp h
            exact Option.bind_eq_some_iff.mpr ⟨list, hlist, ih hle' h⟩
          · rename_i hended
            rw [if_neg hended]
            exact ih hle' h

theorem authenticateSweep_mono {now fuel fuel' : ℕ} (hle : fuel ≤ fuel') {s s' : Sessions ι σ}
    (h : authenticateSweep fuel now s = some s') : authenticateSweep fuel' now s = some s' := by
  obtain ⟨list, hlist, h⟩ := Option.bind_eq_some_iff.mp h
  obtain ⟨s₁, hs₁, h⟩ := Option.bind_eq_some_iff.mp h
  exact Option.bind_eq_some_iff.mpr
    ⟨list, hlist, Option.bind_eq_some_iff.mpr ⟨s₁, sweepLoop_mono hle hs₁, h⟩⟩

/-- A sweep returns, and removes the records it is there to remove and no other. -/
theorem authenticateSweep_eq (now : ℕ) {s : Sessions ι σ} {xs : List ι} {fuel : ℕ}
    (h : Holds s.list xs) (hm : s.list.mutex = false) (hf : xs.length ≤ fuel) :
    ∃ s', authenticateSweep fuel now s = some s' ∧ Holds s'.list (kept now s xs) ∧
      s'.list.mutex = false ∧
      ∀ x, x ∉ xs ∨ x ∈ kept now s xs → s'.auth x = s.auth x ∧ s'.live x = s.live x := by
  let s₁ : Sessions ι σ := { s with list := { s.list with mutex := true } }
  have hs₁ : Holds s₁.list ([] ++ xs) := h.setMutex true
  obtain ⟨s', he, hs', hframe⟩ := sweepLoop_eq now hs₁ hf
  refine ⟨{ s' with list := linkedListUnlock s'.list }, ?_,
    hs'.setMutex false, rfl, hframe⟩
  rw [← h.head_eq, List.getLast?_nil] at he
  simp only [authenticateSweep, linkedListLock, hm, Bool.false_eq_true, if_false,
    Option.bind_eq_bind, Option.bind_some, he, s₁]

end Beirdobot.Auth

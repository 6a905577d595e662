import Beirdobot.Libc
import Beirdobot.Library.IPv6

/-!
# The text of an AAAA record

A transcription of the `T_AAAA` case of `findRR` of `dns.c`.
-/

namespace Beirdobot.Dns

open Library.IPv6

/-- A turn of the loop, with what it has appended and `wasZero`. -/
def aaaaTurn (dlen i tempNum : ℕ) (st : CString × Bool) : CString × Bool :=
  let (result, wasZero) := st
  if i ≠ 0 then
    if wasZero = false ∧ tempNum = 0 then (result ++ "::".toList, true)
    else if wasZero = true ∧ tempNum = 0 ∧ i ≠ dlen - 2 then (result, wasZero)
    else ((if wasZero then result else result ++ ":".toList) ++ showHex tempNum, wasZero)
  else (result ++ showHex tempNum, wasZero)

/-- `((int)cp[i] << 8) + cp[i+1]` -/
def tempNum (cp : ℕ → UInt8) (i : ℕ) : ℕ := 256 * (cp i).toNat + (cp (i + 1)).toNat

/-- `for( i = 0; i < dlen; i += 2 )` -/
def aaaaLoop (cp : ℕ → UInt8) (dlen : ℕ) (is : List ℕ) (st : CString × Bool) : CString × Bool :=
  is.foldl (fun st i ↦ aaaaTurn dlen i (tempNum cp i) st) st

/-- What is appended to `result`, before the blank. -/
def aaaaText (cp : ℕ → UInt8) (dlen : ℕ) : CString :=
  (aaaaLoop cp dlen (List.range' 0 ((dlen + 1) / 2) 2) ([], false)).1

/-! ## What the loop writes -/

/-- Behind a `::`. -/
def zeroTail : List ℕ → CString
  | [] => []
  | [g] => showHex g
  | g :: gs => (if g = 0 then [] else showHex g) ++ zeroTail gs

/-- Behind the first group. -/
def tailText : List ℕ → CString
  | [] => []
  | g :: gs => if g = 0 then ':' :: ':' :: zeroTail gs else ':' :: (showHex g ++ tailText gs)

section Loop

variable {cp : ℕ → UInt8} {dlen i g n : ℕ} {text : CString} {gs : List ℕ}

theorem aaaaTurn_true (hi : i ≠ 0) :
    aaaaTurn dlen i g (text, true) =
      (if g = 0 ∧ i ≠ dlen - 2 then text else text ++ showHex g, true) := by
  rw [aaaaTurn, if_pos hi, if_neg (fun h ↦ Bool.noConfusion h.1), if_pos rfl]
  by_cases h : g = 0 ∧ i ≠ dlen - 2
  · rw [if_pos ⟨rfl, h⟩, if_pos h]
  · rw [if_neg (fun h' ↦ h h'.2), if_neg h]

theorem aaaaTurn_false (hi : i ≠ 0) :
    aaaaTurn dlen i g (text, false) =
      if g = 0 then (text ++ [':', ':'], true) else (text ++ ':' :: showHex g, false) := by
  rw [aaaaTurn, if_pos hi]
  by_cases hg : g = 0
  · rw [if_pos ⟨rfl, hg⟩, if_pos hg]
    rfl
  · rw [if_neg (fun h ↦ hg h.2), if_neg (fun h ↦ Bool.noConfusion h.1), if_neg Bool.false_ne_true,
      if_neg hg, List.append_assoc]
    rfl

theorem zeroTail_cons (g : ℕ) (hne : gs ≠ []) :
    zeroTail (g :: gs) = (if g = 0 then [] else showHex g) ++ zeroTail gs := by
  rw [zeroTail]
  exact hne

theorem aaaaLoop_true (hi : i ≠ 0) (hn : i + 2 * n = 16) :
    (aaaaLoop cp 16 (List.range' i n 2) (text, true)).1 =
      text ++ zeroTail ((List.range' i n 2).map (tempNum cp)) := by
  induction n generalizing i text with
  | zero => exact (List.append_nil _).symm
  | succ n ih =>
      rw [aaaaLoop, List.range'_succ, List.foldl_cons, aaaaTurn_true hi, ← aaaaLoop,
        ih (by omega) (by omega), List.map_cons]
      cases n with
      | zero =>
          rw [if_neg (fun h ↦ h.2 (by omega)), List.append_assoc]
          exact congrArg (text ++ ·) (List.append_nil _)
      | succ n =>
          have hlast : i ≠ 16 - 2 := by omega
          rw [zeroTail_cons _ (by
            rw [List.range'_succ, List.map_cons]
            exact List.cons_ne_nil _ _)]
          by_cases hg : tempNum cp i = 0
          · rw [if_pos ⟨hg, hlast⟩, if_pos hg, List.nil_append]
          · rw [if_neg (fun h ↦ hg h.1), if_neg hg, List.append_assoc]

theorem aaaaLoop_false (hi : i ≠ 0) (hn : i + 2 * n = 16) :
    (aaaaLoop cp 16 (List.range' i n 2) (text, false)).1 =
      text ++ tailText ((List.range' i n 2).map (tempNum cp)) := by
  induction n generalizing i text with
  | zero => exact (List.append_nil _).symm
  | succ n ih =>
      rw [aaaaLoop, List.range'_succ, List.foldl_cons, aaaaTurn_false hi, ← aaaaLoop, List.map_cons,
        tailText]
      by_cases hg : tempNum cp i = 0
      · rw [if_pos hg, if_pos hg, aaaaLoop_true (by omega) (by omega), List.append_assoc]
        rfl
      · rw [if_neg hg, if_neg hg, ih (by omega) (by omega), List.append_assoc]
        rfl

/-- The eight groups of an address. -/
def groups (cp : ℕ → UInt8) : List ℕ := (List.range' 0 8 2).map (tempNum cp)

theorem aaaaText_eq (cp : ℕ → UInt8) :
    aaaaText cp 16 = showHex (tempNum cp 0) ++ tailText ((List.range' 2 7 2).map (tempNum cp)) := by
  have hturns : List.range' 0 ((16 + 1) / 2) 2 = 0 :: List.range' 2 7 2 := rfl
  have hfirst : aaaaTurn 16 0 (tempNum cp 0) ([], false) = (showHex (tempNum cp 0), false) := by
    rw [aaaaTurn, if_neg (not_not_intro rfl), List.nil_append]
  rw [aaaaText, hturns, aaaaLoop, List.foldl_cons, hfirst, ← aaaaLoop, aaaaLoop_false (by decide) rfl]

/-- The groups up to the first zero behind the first one stand between colons. -/
theorem showHex_append_tailText (g : ℕ) (gs : List ℕ) :
    showHex g ++ tailText gs =
      match gs.dropWhile (· != 0) with
      | [] => join (g :: gs)
      | _ :: zs => join (g :: gs.takeWhile (· != 0)) ++ ':' :: ':' :: zeroTail zs := by
  induction gs generalizing g with
  | nil =>
      rw [tailText, List.append_nil]
      exact (join_singleton g).symm
  | cons h gs ih =>
      rw [tailText]
      by_cases hh : h = 0
      · subst hh
        rw [if_pos rfl, List.dropWhile_cons_of_neg (by decide), List.takeWhile_cons_of_neg (by decide),
          join_singleton]
      · have hbne : (h != 0) = true := bne_iff_ne.mpr hh
        have hdrop : (h :: gs).dropWhile (· != 0) = gs.dropWhile (· != 0) :=
          List.dropWhile_cons_of_pos hbne
        have htake : (h :: gs).takeWhile (· != 0) = h :: gs.takeWhile (· != 0) :=
          List.takeWhile_cons_of_pos hbne
        rw [if_neg hh, ih h, hdrop, htake]
        split
        · rw [join_cons g (List.cons_ne_nil h gs)]
        · rw [join_cons g (List.cons_ne_nil h _), List.append_assoc, List.cons_append]

/-! ## What is read again -/

theorem colon_not_mem_zeroTail (gs : List ℕ) : ':' ∉ zeroTail gs := by
  induction gs using zeroTail.induct with
  | case1 => exact List.not_mem_nil
  | case2 g => exact colon_not_mem_showHex g
  | case3 g gs hne ih =>
      rw [zeroTail_cons g hne, List.mem_append, not_or]
      refine ⟨?_, ih⟩
      split
      · exact List.not_mem_nil
      · exact colon_not_mem_showHex g

theorem zeroTail_ne_nil (hne : gs ≠ []) : zeroTail gs ≠ [] := by
  induction gs using zeroTail.induct with
  | case1 => exact absurd rfl hne
  | case2 g => exact showHex_ne_nil g
  | case3 g gs hne' ih =>
      rw [zeroTail_cons g hne']
      exact List.append_ne_nil_of_right_ne_nil _ (ih hne')

/-- Zeros are left out up to the last group. -/
theorem zeroTail_zeros (m : ℕ) (g : ℕ) : zeroTail (List.replicate m 0 ++ [g]) = showHex g := by
  induction m with
  | zero => rfl
  | succ m ih =>
      rw [List.replicate_succ, List.cons_append, zeroTail_cons, if_pos rfl, List.nil_append, ih]
      exact List.append_ne_nil_of_right_ne_nil _ (List.cons_ne_nil _ _)

/-- The zeros from the first one on, but for the last group, are all that is left out. -/
theorem read_text_iff (g : ℕ) (hlength : gs.length = 7) (hgroups : ∀ h ∈ g :: gs, h < 65536) :
    read (showHex g ++ tailText gs) = some (g :: gs) ↔
      ∀ z ∈ (gs.dropWhile (· != 0)).dropLast, z = 0 := by
  have hsplit := List.takeWhile_append_dropWhile (p := (· != 0)) (l := gs)
  have hhead := List.head?_dropWhile_not (· != 0) gs
  rw [showHex_append_tailText]
  rcases hrest : gs.dropWhile (· != 0) with _ | ⟨z, zs⟩
  · refine iff_of_true ?_ (by rintro _ ⟨⟩)
    exact read_join hgroups (by rw [List.length_cons, hlength])
  · rw [hrest, List.head?_cons] at hhead
    obtain rfl : z = 0 := bne_eq_false_iff_eq.mp hhead
    rw [hrest] at hsplit
    generalize gs.takeWhile (· != 0) = w at hsplit
    subst hsplit
    have hw : ∀ h ∈ g :: w, h < 65536 := fun h hh ↦
      hgroups h (List.mem_append_left (0 :: zs) hh)
    rw [List.length_append, List.length_cons] at hlength
    dsimp only
    rw [read_join_append g w hw]
    rcases List.eq_nil_or_concat' zs with rfl | ⟨zs, last, rfl⟩
    · have hw6 : w.length = 6 := by
        rw [List.length_nil] at hlength
        omega
      refine iff_of_true ?_ (by rintro _ ⟨⟩)
      have hnone : readGroups (zeroTail []) = some [] := rfl
      rw [hnone, Option.bind_some, hw6]
      rfl
    · have hne : zs ++ [last] ≠ [] := List.concat_ne_nil _ _
      have hdrop : (0 :: (zs ++ [last])).dropLast = 0 :: zs := by
        rw [← List.cons_append, List.dropLast_concat]
      have hlast : last < 65536 := hgroups last (by simp)
      rw [List.length_append, List.length_singleton] at hlength
      rw [hdrop, readGroups_of_not_mem (colon_not_mem_zeroTail _) (zeroTail_ne_nil hne)]
      constructor
      · -- what is read are zeros and a group
        intro h
        rcases hread : readGroup (zeroTail (zs ++ [last])) with _ | v
        · rw [hread] at h
          cases h
        · rw [hread, Option.map_some, Option.bind_some] at h
          split at h
          · rw [Option.some.injEq, List.cons_append, List.cons.injEq, List.append_cancel_left_eq] at h
            have hzeros := congrArg List.dropLast h.2
            rw [List.dropLast_concat, hdrop] at hzeros
            rw [← hzeros]
            exact fun z hz ↦ List.eq_of_mem_replicate hz
          · cases h
      · intro hzero
        have hzs : zs = List.replicate zs.length 0 :=
          List.eq_replicate_of_mem fun z hz ↦ hzero z (List.mem_cons_of_mem _ hz)
        have hread : readGroup (zeroTail (zs ++ [last])) = some last := by
          rw [hzs, zeroTail_zeros, readGroup_showHex hlast]
        have hcount : 8 - (w.length + 1) - 1 = zs.length + 1 := by omega
        rw [hread, Option.map_some, Option.bind_some, List.length_singleton, if_pos (by omega), hcount,
          List.replicate_succ, ← hzs]
        rfl

end Loop

theorem tempNum_lt (cp : ℕ → UInt8) (i : ℕ) : tempNum cp i < 65536 := by
  have hi := (cp i).toNat_lt
  have hi' := (cp (i + 1)).toNat_lt
  rw [tempNum]
  omega

/-- The bytes of the groups of an address. -/
def bytesOf (groups : List ℕ) : List ℕ := groups.flatMap fun g ↦ [g / 256, g % 256]

theorem tempNum_bytes (cp : ℕ → UInt8) (i : ℕ) :
    [tempNum cp i / 256, tempNum cp i % 256] = [(cp i).toNat, (cp (i + 1)).toNat] := by
  have hi' := (cp (i + 1)).toNat_lt
  rw [tempNum]
  congr 1
  · omega
  · congr 1
    omega

theorem bytesOf_groups (cp : ℕ → UInt8) :
    bytesOf (groups cp) = (List.range 16).map fun i ↦ (cp i).toNat := by
  rw [bytesOf, groups, List.flatMap_map]
  simp only [tempNum_bytes]
  rfl

/-- The groups can be told from the bytes. -/
theorem bytesOf_injective : Function.Injective bytesOf := by
  intro gs
  induction gs with
  | nil =>
      intro hs h
      cases hs with
      | nil => rfl
      | cons k hs => cases h
  | cons g gs ih =>
      intro hs h
      cases hs with
      | nil => cases h
      | cons k hs =>
          rw [bytesOf, bytesOf, List.flatMap_cons, List.flatMap_cons, ← bytesOf, ← bytesOf] at h
          simp only [List.cons_append, List.nil_append, List.cons.injEq] at h
          obtain ⟨hdiv, hmod, hrest⟩ := h
          rw [ih hrest, ← Nat.div_add_mod g 256, hdiv, hmod, Nat.div_add_mod]

/-- The text of an address is read as its bytes if and only if, from the first zero group
behind the first group on, all groups but the last are zero. -/
theorem aaaaText_iff (cp : ℕ → UInt8) :
    (read (aaaaText cp 16)).map bytesOf = some ((List.range 16).map fun i ↦ (cp i).toNat) ↔
      ∀ g ∈ ((groups cp).tail.dropWhile (· != 0)).dropLast, g = 0 := by
  have hgroups : groups cp = tempNum cp 0 :: (List.range' 2 7 2).map (tempNum cp) := rfl
  have hlt : ∀ g ∈ groups cp, g < 65536 := by
    intro g hg
    obtain ⟨i, -, rfl⟩ := List.mem_map.mp hg
    exact tempNum_lt cp i
  have hmap : (read (aaaaText cp 16)).map bytesOf = (some (groups cp)).map bytesOf ↔
      read (aaaaText cp 16) = some (groups cp) :=
    (Option.map_injective bytesOf_injective).eq_iff
  rw [← bytesOf_groups, ← Option.map_some, hmap, aaaaText_eq]
  rw [hgroups] at hlt ⊢
  exact read_text_iff _ rfl hlt

/-- `2001:db8::1:2` comes out as `2001:DB8::12`. -/
theorem not_aaaaText :
    let cp : ℕ → UInt8 := fun i ↦ [32, 1, 13, 184, 0, 0, 0, 0, 0, 0, 0, 0, 0, 1, 0, 2].getD i 0
    aaaaText cp 16 = "2001:DB8::12".toList ∧
      (read (aaaaText cp 16)).map bytesOf ≠ some ((List.range 16).map fun i ↦ (cp i).toNat) := by
  have hread : read "2001:DB8::12".toList = some [8193, 3512, 0, 0, 0, 0, 0, 18] := rfl
  refine ⟨rfl, fun h ↦ ?_⟩
  have hsame : (read "2001:DB8::12".toList).map bytesOf = _ := h
  rw [hread] at hsame
  exact absurd (Option.some.inj hsame) (by decide)

end Beirdobot.Dns

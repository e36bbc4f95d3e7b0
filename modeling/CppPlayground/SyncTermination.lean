import CppPlayground.SockSync

/-!
# When `sock_sync_data` ends

The results of `read` are an infinite sequence: bytes, then end-of-stream for
ever or an error, or enough bytes before either. The loop runs while its
result variable is zero, and end-of-stream stores the zero that `read`
returned into it, so a peer that closes too early keeps the loop going.
-/
namespace CppPlayground.SockSync

/-- The bytes that the first reads of the sequence supply. -/
def received (reads : ℕ → ReadResult) : ℕ → ℕ
  | 0 => 0
  | n + 1 => received reads n + match reads n with
    | .data bytes => bytes.length
    | .eof => 0
    | .error => 0

/-- A read returns between one byte and the size asked for, an end-of-stream
stays, and at some point the sequence fails, ends or has supplied the data. Of
greater records than these the bytes may be too many to count in an `int`. -/
structure PeerBehaviour (xferSize : ℕ) (reads : ℕ → ReadResult) : Prop where
  size_le : xferSize ≤ 2 ^ 30
  pieces : ∀ k bytes, reads k = .data bytes → 0 < bytes.length ∧ bytes.length ≤ xferSize
  eof_stays : ∀ k, reads k = .eof → ∀ j ≥ k, reads j = .eof
  ends : ∃ k, reads k = .error ∨ reads k = .eof ∨ xferSize ≤ received reads k

/-- End-of-stream comes before the data, and no read before it fails. -/
def PrematureEof (xferSize : ℕ) (reads : ℕ → ReadResult) : Prop :=
  ∃ k, reads k = .eof ∧ received reads k < xferSize ∧ ∀ j < k, reads j ≠ .error

/-- The first reads of the sequence. -/
def firstReads (reads : ℕ → ReadResult) (n : ℕ) : List ReadResult := (List.range n).map reads

/-- The variables after so many passes, were the loop not to stop. -/
def SyncCall.after (s : SyncCall) (reads : ℕ → ReadResult) : ℕ → SyncCall
  | 0 => s
  | n + 1 => (s.after reads n).read (reads n)

theorem SyncCall.after_succ (s : SyncCall) (reads : ℕ → ReadResult) (n : ℕ) :
    s.after reads (n + 1) = (s.read (reads 0)).after (fun k => reads (k + 1)) n := by
  induction n with
  | zero => rfl
  | succ n ih =>
      rw [SyncCall.after, ih]
      rfl

theorem firstReads_succ (reads : ℕ → ReadResult) (n : ℕ) :
    firstReads reads (n + 1) = reads 0::firstReads (fun k => reads (k + 1)) n := by
  simp [firstReads, List.range_succ_eq_map, List.map_map, Function.comp_def]

/-- The loop stops at the first pass whose condition fails. -/
theorem SyncCall.loop_stops {xferSize n : ℕ} {s : SyncCall} {reads : ℕ → ReadResult}
    (hbefore : ∀ j < n, (s.after reads j).Looping xferSize)
    (hstop : ¬ (s.after reads n).Looping xferSize) :
    s.loop xferSize (firstReads reads n) = some (s.after reads n) := by
  induction n generalizing s reads with
  | zero => exact if_neg hstop
  | succ n ih =>
      have hfirst : s.Looping xferSize := hbefore 0 (by omega)
      rw [SyncCall.after_succ] at hstop
      rw [firstReads_succ, SyncCall.after_succ, SyncCall.loop, if_pos hfirst]
      apply ih _ hstop
      intro j hj
      rw [← SyncCall.after_succ]
      exact hbefore (j + 1) (by omega)

/-- While the condition holds the loop asks for more reads. -/
theorem SyncCall.loop_waits {xferSize n : ℕ} {s : SyncCall} {reads : ℕ → ReadResult}
    (h : ∀ j ≤ n, (s.after reads j).Looping xferSize) :
    s.loop xferSize (firstReads reads n) = none := by
  induction n generalizing s reads with
  | zero => exact if_pos (h 0 (le_refl 0))
  | succ n ih =>
      have hfirst : s.Looping xferSize := h 0 (by omega)
      rw [firstReads_succ, SyncCall.loop, if_pos hfirst]
      apply ih
      intro j hj
      rw [← SyncCall.after_succ]
      exact h (j + 1) (by omega)

/-- A loop that has ended did so at its first pass whose condition fails. -/
theorem SyncCall.loop_ended {xferSize n : ℕ} {s t : SyncCall} {reads : ℕ → ReadResult}
    (h : s.loop xferSize (firstReads reads n) = some t) :
    ∃ m, (∀ j < m, (s.after reads j).Looping xferSize) ∧
      ¬ (s.after reads m).Looping xferSize ∧ t = s.after reads m := by
  induction n generalizing s reads with
  | zero =>
      simp only [firstReads, List.range_zero, List.map_nil, SyncCall.loop] at h
      split_ifs at h with hlooping
      cases h
      exact ⟨0, by simp, hlooping, rfl⟩
  | succ n ih =>
      rw [firstReads_succ, SyncCall.loop] at h
      split_ifs at h with hlooping
      · obtain ⟨m, hbefore, hstop, rfl⟩ := ih h
        refine ⟨m + 1, ?_, ?_, ?_⟩
        · intro j hj
          cases j with
          | zero => exact hlooping
          | succ j =>
              rw [SyncCall.after_succ]
              exact hbefore j (by omega)
        · rwa [SyncCall.after_succ]
        · rw [SyncCall.after_succ]
      · cases h
        exact ⟨0, by simp, hlooping, rfl⟩

/-- A short write leaves its count as the result. -/
theorem SyncCall.begin_rc_short {xferSize : ℕ} {written : ℤ} (h : written < xferSize)
    (remoteData : HostBytes.Memory) :
    (SyncCall.begin xferSize written remoteData).rc = written := if_pos h

/-- After a complete write, and after a write of nothing, the reads begin. -/
theorem SyncCall.begin_rc_zero {xferSize : ℕ} {written : ℤ}
    (h : ¬ (written < xferSize ∧ written ≠ 0)) (remoteData : HostBytes.Memory) :
    (SyncCall.begin xferSize written remoteData).rc = 0 := by
  by_cases hshort : written < xferSize
  · rw [SyncCall.begin_rc_short hshort]
    by_contra hne
    exact h ⟨hshort, hne⟩
  · exact if_neg hshort

theorem SyncCall.after_total (s : SyncCall) (reads : ℕ → ReadResult) (n : ℕ) :
    (s.after reads n).totalReadBytes = s.totalReadBytes + received reads n := by
  induction n with
  | zero => rfl
  | succ n ih =>
      rw [SyncCall.after, received]
      cases reads n <;> simp only [SyncCall.read, ih] <;> omega

/-- No read that the loop makes takes the count out of the range of `int`. -/
theorem SyncCall.after_total_lt {xferSize n : ℕ} {s : SyncCall} {reads : ℕ → ReadResult}
    (hpeer : PeerBehaviour xferSize reads) (h : (s.after reads n).Looping xferSize) :
    (s.after reads (n + 1)).totalReadBytes < 2 ^ 31 := by
  have hsize := hpeer.size_le
  have hbelow := h.2
  rw [SyncCall.after]
  cases hread : reads n with
  | data bytes =>
      have hpiece := (hpeer.pieces n bytes hread).2
      simp only [SyncCall.read]
      omega
  | eof | error =>
      simp only [SyncCall.read]
      omega

/-- Only a failed read makes the result nonzero. -/
theorem SyncCall.after_rc {s : SyncCall} {reads : ℕ → ReadResult} {n : ℕ} (hrc : s.rc = 0)
    (hok : ∀ j < n, reads j ≠ .error) : (s.after reads n).rc = 0 := by
  induction n with
  | zero => exact hrc
  | succ n ih =>
      have hprev := ih fun j hj => hok j (by omega)
      have hlast := hok n (by omega)
      rw [SyncCall.after]
      cases hread : reads n with
      | data bytes => exact hprev
      | eof => rfl
      | error => exact absurd hread hlast

theorem SyncCall.after_error {s : SyncCall} {reads : ℕ → ReadResult} {k : ℕ}
    (h : reads k = .error) : (s.after reads (k + 1)).rc = -1 := by
  rw [SyncCall.after, h]
  rfl

theorem received_mono (reads : ℕ → ReadResult) {j k : ℕ} (h : j ≤ k) :
    received reads j ≤ received reads k := by
  induction h with
  | refl => exact le_refl _
  | step _ ih => exact ih.trans (Nat.le_add_right _ _)

/-- After end-of-stream nothing more is supplied. -/
theorem received_eof {reads : ℕ → ReadResult} {k : ℕ} (h : ∀ j ≥ k, reads j = .eof) (j : ℕ) :
    received reads j ≤ received reads k := by
  induction j with
  | zero => exact received_mono reads (Nat.zero_le k)
  | succ j ih =>
      rcases Nat.lt_or_ge j k with hlt | hge
      · exact received_mono reads hlt
      · rw [received, h j hge]
        exact ih

/-- Early end-of-stream: no number of reads ends the loop. -/
theorem SyncCall.premature_never_ends {xferSize : ℕ} {s : SyncCall} {reads : ℕ → ReadResult}
    (hpeer : PeerBehaviour xferSize reads) (hrc : s.rc = 0) (htotal : s.totalReadBytes = 0)
    (h : PrematureEof xferSize reads) (n : ℕ) : s.loop xferSize (firstReads reads n) = none := by
  obtain ⟨k, heof, hshort, hok⟩ := h
  have hstays := hpeer.eof_stays k heof
  apply SyncCall.loop_waits
  intro j _
  constructor
  · apply SyncCall.after_rc hrc
    intro i _
    rcases Nat.lt_or_ge i k with hlt | hge
    · exact hok i hlt
    · simp [hstays i hge]
  · have hle := received_eof hstays j
    rw [SyncCall.after_total, htotal]
    omega

/-- Without it some pass is the last one. -/
theorem SyncCall.exists_stop {xferSize : ℕ} {s : SyncCall} {reads : ℕ → ReadResult}
    (hpeer : PeerBehaviour xferSize reads) (htotal : s.totalReadBytes = 0)
    (h : ¬ PrematureEof xferSize reads) : ∃ n, ¬ (s.after reads n).Looping xferSize := by
  by_contra! hall
  obtain ⟨k, herror | heof | henough⟩ := hpeer.ends
  · have hrc := (hall (k + 1)).1
    rw [SyncCall.after_error herror] at hrc
    omega
  · apply h
    refine ⟨k, heof, ?_, ?_⟩
    · have hless := (hall k).2
      rw [SyncCall.after_total, htotal] at hless
      omega
    · intro j _ herror
      have hrc := (hall (j + 1)).1
      rw [SyncCall.after_error herror] at hrc
      omega
  · have hless := (hall k).2
    rw [SyncCall.after_total, htotal] at hless
    omega

theorem SyncCall.exists_loop_eq {xferSize : ℕ} {s : SyncCall} {reads : ℕ → ReadResult}
    (h : ∃ n, ¬ (s.after reads n).Looping xferSize) :
    ∃ n t, s.loop xferSize (firstReads reads n) = some t := by
  classical
  refine ⟨Nat.find h, _, SyncCall.loop_stops (fun j hj => ?_) (Nat.find_spec h)⟩
  exact not_not.mp (Nat.find_min h hj)

/-- The call ends, and reports an early end-of-stream, exactly when there is
none or when a short write has kept the call from reading at all. -/
theorem sync_ends_iff {xferSize : ℕ} (written : ℤ) (remoteData : HostBytes.Memory)
    {reads : ℕ → ReadResult} (hpeer : PeerBehaviour xferSize reads) :
    (∃ n s, sockSyncData xferSize written remoteData (firstReads reads n) = some s ∧
        (PrematureEof xferSize reads → s.rc ≠ 0)) ↔
      ¬ PrematureEof xferSize reads ∨ (written < xferSize ∧ written ≠ 0) := by
  by_cases hshort : written < xferSize ∧ written ≠ 0
  · have hrc : (SyncCall.begin xferSize written remoteData).rc ≠ 0 := by
      rw [SyncCall.begin_rc_short hshort.1]
      exact hshort.2
    have hstop : ¬ (SyncCall.begin xferSize written remoteData).Looping xferSize := fun h => hrc h.1
    refine ⟨fun _ => .inr hshort, fun _ => ⟨0, _, if_neg hstop, fun _ => hrc⟩⟩
  · have hrc := SyncCall.begin_rc_zero hshort remoteData
    constructor
    · rintro ⟨n, s, hs, _⟩
      refine .inl fun hpremature => ?_
      have hnone := SyncCall.premature_never_ends hpeer hrc rfl hpremature n
      rw [sockSyncData, hnone] at hs
      cases hs
    · rintro (hend | hwritten)
      · obtain ⟨n, t, ht⟩ := SyncCall.exists_loop_eq (SyncCall.exists_stop hpeer
          (s := SyncCall.begin xferSize written remoteData) rfl hend)
        exact ⟨n, t, ht, fun hpremature => absurd hpremature hend⟩
      · exact absurd hwritten hshort

/-- The 34 bytes of connection data in two pieces, then the peer closes. -/
def inPieces (k : ℕ) : ReadResult :=
  if k = 0 then .data (List.replicate 10 0)
  else if k = 1 then .data (List.replicate 24 0) else .eof

theorem inPieces_behaviour : PeerBehaviour 34 inPieces where
  size_le := by norm_num
  pieces k bytes h := by
    unfold inPieces at h
    split_ifs at h
    · cases h
      decide
    · cases h
      decide
  eof_stays k h j hj := by
    unfold inPieces at h ⊢
    split_ifs at h with hfirst hsecond
    rw [if_neg (by omega), if_neg (by omega)]
  ends := ⟨2, .inr (.inl rfl)⟩

theorem sync_ends_in_pieces :
    ∃ n s, sockSyncData 34 34 (fun _ => 0) (firstReads inPieces n) = some s ∧
      (PrematureEof 34 inPieces → s.rc ≠ 0) := by
  refine (sync_ends_iff 34 _ inPieces_behaviour).mpr (.inl ?_)
  rintro ⟨k, heof, hshort, _⟩
  have hk : 2 ≤ k := by
    unfold inPieces at heof
    split_ifs at heof with hfirst hsecond
    omega
  have hall := received_mono inPieces hk
  have htwo : received inPieces 2 = 34 := by decide
  omega

/-- Ten of the 34 bytes of connection data, then the peer closes. -/
def closesEarly (k : ℕ) : ReadResult := if k = 0 then .data (List.replicate 10 0) else .eof

theorem closesEarly_behaviour : PeerBehaviour 34 closesEarly where
  size_le := by norm_num
  pieces k bytes h := by
    unfold closesEarly at h
    split_ifs at h
    cases h
    decide
  eof_stays k h j hj := by
    unfold closesEarly at h ⊢
    split_ifs at h with hk
    rw [if_neg (by omega)]
  ends := ⟨1, .inr (.inl rfl)⟩

/-- The call on it reads for ever. -/
theorem sync_never_ends_on_early_close :
    PeerBehaviour 34 closesEarly ∧ PrematureEof 34 closesEarly ∧
      ∀ n, sockSyncData 34 34 (fun _ => 0) (firstReads closesEarly n) = none := by
  have hpremature : PrematureEof 34 closesEarly := by
    refine ⟨1, rfl, by decide, ?_⟩
    intro j hj
    have hj0 : j = 0 := by omega
    rw [hj0]
    simp [closesEarly]
  exact ⟨closesEarly_behaviour, hpremature,
    SyncCall.premature_never_ends closesEarly_behaviour rfl rfl hpremature⟩

end CppPlayground.SockSync

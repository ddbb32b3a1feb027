import Fickle.Proofs.Session.Beginning

/-! # The place of a replay

A replay goes through its log place by place and pays no heed to the numbers in it. Its own number
starts again with each new seed, and its place does not. So the number, the place and the recorded
number are the same only where the log has no gaps and no seed came in between.
-/

namespace Fickle

/-! ## Numbers in a log -/

/-- Numbers that grow are not smaller than their places. -/
theorem Log.Readable.le_seq {log : Log} (h : log.Readable) {k : Nat} {d : Decision}
    (hd : log.decisions[k]? = some d) : k ≤ d.seq.toNat := by
  induction k generalizing d with
  | zero => exact Nat.zero_le _
  | succ k ih =>
    obtain ⟨hlt, rfl⟩ := Array.getElem?_eq_some_iff.mp hd
    have hprevious := ih (Array.getElem?_eq_getElem (by omega))
    have hgrows := List.pairwise_iff_getElem.mp h.ascending k (k + 1) (by simp; omega)
      (by simp; omega) (by omega)
    rw [UInt64.lt_iff_toNat_lt, Array.getElem_toList, Array.getElem_toList] at hgrows
    omega

/-- The number of the call at which a replay came to a fault. -/
def Fault.seq? : Fault → Option Nat
  | .replayDivergence seq _ _ _ | .replaySiteMismatch seq _ _ _ | .replayExhausted seq _ _ =>
    some seq
  | _ => none

theorem Args.seq?_of_check {c : Construct} {args : Args Binary64} {f : Fault}
    (h : args.check c = .error f) : f.seq? = none := by
  unfold check at h
  split at h
  · cases h
    rfl
  · split at h
    · cases h
      rfl
    · cases h

theorem Log.seq?_of_lookup {log : Log} {k seq n : Nat} {c : Construct} {site : Site}
    {args : Args Binary64} {f : Fault} (h : log.lookup k seq c site args = .error f)
    (hf : f.seq? = some n) : n = seq := by
  unfold lookup at h
  rcases hcheck : args.check c with f' | ⟨⟩
  · rw [hcheck] at h
    cases h
    rw [Args.seq?_of_check hcheck] at hf
    cases hf
  · rw [hcheck] at h
    dsimp only at h
    split at h
    · cases h
      exact (Option.some.inj hf).symm
    · split at h
      · cases h
        exact (Option.some.inj hf).symm
      · split at h
        · cases h
          exact (Option.some.inj hf).symm
        · cases h

/-! ## The lag of the number -/

namespace Session

/-- As long as the session replays, it replays the log, and its number is `lag` behind its place. -/
def Lags (log : Log) (lag : Nat) (s : Session) : Prop :=
  s.isReplaying = true → s.mode = .replaying ⟨log, s.next + lag⟩ ∧ s.next + lag ≤ log.size

variable {log : Log} {lag : Nat} {s t : Session}

theorem lags_of_replay {registry : Registry} (h : replay log registry = .ok s) : s.Lags log 0 := by
  obtain ⟨t, hcreate, h⟩ := bind_eq_ok_iff.mp h
  cases h
  obtain ⟨profile, chaos, -, -, rfl⟩ := of_create_eq_opened hcreate
  exact fun _ => ⟨rfl, Nat.zero_le _⟩

theorem isReplaying_reseed (s : Session) (seed : UInt64) :
    (s.reseed seed).isReplaying = s.isReplaying := by
  unfold isReplaying reseed rewind
  rcases s.mode with _ | log | cursor
  · rfl
  · rfl
  · rfl

/-- A new seed leaves the place alone and starts the number again. -/
theorem Lags.reseed (h : s.Lags log lag) (seed : UInt64) :
    (s.reseed seed).Lags log (s.next + lag) := by
  intro hreplaying
  rw [isReplaying_reseed] at hreplaying
  rw [reseed_of_replaying hreplaying]
  have hnext : (s.rewind seed false).next + (s.next + lag) = s.next + lag := Nat.zero_add _
  rw [hnext]
  exact h hreplaying

/-- Every other move that goes on with the replay keeps the number as far behind the place. -/
theorem Lags.accept (h : s.Lags log lag) {m : Move} (hm : ∀ seed, m ≠ .reseed seed)
    (hmove : s.accept m = .ok t) : t.Lags log lag := by
  intro hreplaying
  cases accepts_of_accept hmove with
  | decides heval =>
    rcases hs : s.isReplaying
    · rw [(yields_of_evaluate_eq_ok hs heval).2] at hreplaying
      cases hreplaying
    · obtain ⟨hmode, -⟩ := h hs
      obtain ⟨d, hlookup, -, rfl⟩ := of_evaluate_eq_ok_of_replaying hmode heval
      obtain ⟨hlt, -⟩ := Array.getElem?_eq_some_iff.mp (Log.lookup_eq_ok_iff.mp hlookup).2.1
      -- Number and place go on together.
      have hplace : s.next + lag + 1 = s.next + 1 + lag := by omega
      rw [hplace]
      refine ⟨rfl, ?_⟩
      show s.next + 1 + lag ≤ log.decisions.size
      omega
  | fallsBack | setsProfile _ | setsChaos _ | stays _ => exact h hreplaying
  | reseeds seed _ | rewinds seed _ => exact absurd rfl (hm seed)
  | restarts hcreate =>
    rw [(of_create_eq_ok hcreate).2.2] at hreplaying
    cases hreplaying
  | records | goesLive _ => cases hreplaying

theorem exists_lags_accept {m : Move} (h : ∃ lag, s.Lags log lag) (hmove : s.accept m = .ok t) :
    ∃ lag, t.Lags log lag := by
  obtain ⟨lag, h⟩ := h
  by_cases hm : ∃ seed, m = .reseed seed
  · obtain ⟨seed, rfl⟩ := hm
    cases hmove
    exact ⟨_, h.reseed seed⟩
  · exact ⟨lag, h.accept (fun seed hseed => hm ⟨seed, hseed⟩) hmove⟩

end Session

/-! ## The place of a host -/

/-- The host replays the log and has come to place `k` of it. The next call has the decision at
that place, whatever its number, and a fault names the number of the call. -/
structure Host.AtPlace (log : Log) (k : Nat) (h : Host) : Prop where
  mode : h.session.mode = .replaying ⟨log, k⟩
  le : k ≤ log.size
  next_le : h.session.next ≤ k
  le_seq : ∀ d, log.decisions[k]? = some d → k ≤ d.seq.toNat
  seq_eq_next_iff : ∀ d, log.decisions[k]? = some d →
    (d.seq.toNat = h.session.next ↔ d.seq.toNat = k ∧ h.session.next = k)
  evaluate : ∀ c site args, ((Program.evaluate c site args).play h).1 =
    (log.lookup k h.session.next c site args).map Decision.outcome
  seq_of_fault : ∀ c site args f n, ((Program.evaluate c site args).play h).1 = .error f →
    f.seq? = some n → n = h.session.next

theorem Session.Lags.atPlace {log : Log} {lag : Nat} {h : Host} (hlags : h.session.Lags log lag)
    (hreplaying : h.session.isReplaying = true) (hlog : log.Readable) :
    h.AtPlace log (h.session.next + lag) := by
  obtain ⟨hmode, hle⟩ := hlags hreplaying
  have hanswer := Request.answer_evaluate (h := h) ⟨hmode, hle⟩
  refine ⟨hmode, hle, Nat.le_add_right _ _, fun d => hlog.le_seq, ?_, hanswer, ?_⟩
  · intro d hd
    have hle' := hlog.le_seq hd
    omega
  · intro c site args f n hfail hseq
    rw [hanswer c site args] at hfail
    rcases hlookup : log.lookup (h.session.next + lag) h.session.next c site args with f' | d
    · rw [hlookup] at hfail
      cases hfail
      exact Log.seq?_of_lookup hlookup hseq
    · rw [hlookup] at hfail
      cases hfail

namespace Script

variable {β : Type} {c : Script β} {log : Log} {lag : Nat} {h : Host}

/-- Begins no run with another seed. -/
def KeepsSeed (c : Script β) : Prop := c.Within fun m => ∀ seed, m ≠ .reseed seed

/-- When the script is run on the host, it gives a replay no seed once a decision has been taken
from the log. -/
def SeedsFirst (c : Script β) (h : Host) : Prop :=
  c.Heeds (fun s m => ∀ seed, m = .reseed seed →
    ∀ cursor, s.mode = .replaying cursor → cursor.next = 0) h

theorem KeepsSeed.seedsFirst (hc : c.KeepsSeed) (h : Host) : c.SeedsFirst h :=
  heeds_of_within (fun _ _ hm seed hseed => absurd hseed (hm seed)) hc h

theorem lags_of_seedsFirst (hc : c.SeedsFirst h) (hlags : h.session.Lags log lag) :
    (c.program.play h).2.session.Lags log lag := by
  refine Heeds.preserves (I := Session.Lags log lag) (fun s t m hm haccept hlags => ?_)
    (fun s t m hm haccept hlags => ?_) hc hlags
  · exact hlags.accept (by rintro seed rfl; cases hm) haccept
  · by_cases hseed : ∃ seed, m = .reseed seed
    · obtain ⟨seed, rfl⟩ := hseed
      cases haccept
      intro hreplaying
      -- The replay is at its beginning, where the new number is the old one.
      have hmode := (hlags (Session.isReplaying_reseed s seed ▸ hreplaying)).1
      have hstart : s.next + lag = 0 := hm seed rfl _ hmode
      have hlag : s.next + lag = lag := by omega
      exact (hlag ▸ hlags.reseed seed) hreplaying
    · exact hlags.accept (fun seed h => hseed ⟨seed, h⟩) haccept

theorem exists_lags (c : Script β) (hlags : ∃ lag, h.session.Lags log lag) :
    ∃ lag, (c.program.play h).2.session.Lags log lag :=
  (c.moves (fun _ _ => trivial) (c.within_of_forall fun _ => trivial) h).preserves
    (fun _ _ _ _ hmove hlags => Session.exists_lags_accept hlags hmove) hlags

end Script

/-- A replay goes by place. Whatever is done while it lasts, the next call has the decision at the
place that has been come to, and a fault names the number of the call. The number lags behind the
place by what it was set back by: by nothing if all seeds were given before the first decision was
taken, and from any time on by as much as then, until a seed is given. -/
theorem Program.replay_goes_by_place {bs : List UInt8} {log : Log}
    (hdecode : Log.decode bs = .ok log) {registry : Registry} {s : Session}
    (hreplay : Session.replay log registry = .ok s) (clock : Clock) {β : Type} (c : Script β)
    {h : Host} (hplay : (c.program.play (.ofSession s clock)).2 = h)
    (hlasts : h.session.isReplaying = true) :
    ∃ lag, h.AtPlace log (h.session.next + lag) ∧ (c.SeedsFirst (.ofSession s clock) → lag = 0) ∧
      ∀ {γ : Type} (c' : Script γ), c'.KeepsSeed →
        (c'.program.play h).2.session.isReplaying = true →
        (c'.program.play h).2.AtPlace log ((c'.program.play h).2.session.next + lag) := by
  have hlog := (Log.decode_eq_ok_iff.mp hdecode).1
  have hstart : (Host.ofSession s clock).session.Lags log 0 := Session.lags_of_replay hreplay
  obtain ⟨lag, hlags⟩ := c.exists_lags ⟨0, hstart⟩
  rw [hplay] at hlags
  refine ⟨lag, hlags.atPlace hlasts hlog, ?_, fun c' hc' hlasts' => ?_⟩
  · intro hc
    have hnone := Script.lags_of_seedsFirst hc hstart
    rw [hplay] at hnone
    have hmode := (hnone hlasts).1.symm.trans (hlags hlasts).1
    -- There is one place only, so the two lags are the same.
    rw [Mode.replaying.injEq, Cursor.mk.injEq] at hmode
    omega
  · exact (Script.lags_of_seedsFirst (hc'.seedsFirst h) hlags).atPlace hlasts' hlog

/-! ## Where the numbers come apart -/

/-- A log of two decisions at one site, with the given numbers. -/
def Log.ofTwoDecisions (i j : UInt64) : Log :=
  ⟨7, "playful", .least, false,
    #[⟨i, ⟨1⟩, .maybe, ⟨0x3FE0000000000000⟩, .bool true⟩,
      ⟨j, ⟨1⟩, .fuzzyBool, ⟨0x3FE0000000000000⟩, .bool false⟩]⟩

theorem Log.decode_ofTwoDecisions {i j : UInt64} (h : i < j) :
    ∃ bs, decode bs = .ok (ofTwoDecisions i j) := by
  have hreadable : (ofTwoDecisions i j).Readable := by
    refine ⟨?_, ?_, List.pairwise_pair.mpr h, ?_⟩
    · show "playful".utf8ByteSize ≤ Header.maxNameLength
      decide
    · show 2 * recordSize < 2 ^ 64
      decide
    · have hwithin : Scalar.within 0.0 1.0 (⟨0x3FE0000000000000⟩ : Binary64) = true := by
        decide +kernel
      intro d hd
      rcases List.mem_cons.mp (Array.mem_toList_iff.mpr hd) with rfl | hd
      · exact ⟨hwithin, by rintro v ⟨⟩⟩
      · rw [List.mem_singleton.mp hd]
        exact ⟨hwithin, by rintro v ⟨⟩⟩
  exact ⟨_, decode_sealed hreadable (hasUnknown_flags _) (isAutoSeeded_flags _)⟩

/-- Has one decision replayed and then starts the stream again. -/
def Script.reseedAfterOne : Script Unit :=
  .attempt (.operate (.maybe ⟨1⟩ true)) fun _ => .reseed 9

/-- Starts the stream again and then has one decision replayed. -/
def Script.reseedBeforeOne : Script Bool :=
  .attempt (.reseed 9) fun _ => .operate (.maybe ⟨1⟩ true)

/-- A new seed after the first decision leaves the number one behind the place. One before it leaves
the number where the place is. -/
theorem Program.replay_goes_by_place_reseedAfterOne :
    ∃ bs s, Log.decode bs = .ok (.ofTwoDecisions 0 1) ∧
      Session.replay (.ofTwoDecisions 0 1) Registry.builtin = .ok s ∧
      (∃ h, (Script.reseedAfterOne.program.play (.ofSession s Clock.zero)).2 = h ∧
        h.session.isReplaying = true ∧ h.session.next = 0 ∧
        h.AtPlace (.ofTwoDecisions 0 1) 1) ∧
      ∃ h, (Script.reseedBeforeOne.program.play (.ofSession s Clock.zero)).2 = h ∧
        h.session.isReplaying = true ∧ h.session.next = 1 ∧
        h.AtPlace (.ofTwoDecisions 0 1) 1 := by
  obtain ⟨bs, hdecode⟩ := Log.decode_ofTwoDecisions (show (0 : UInt64) < 1 by decide)
  let s := Session.reader (.ofTwoDecisions 0 1) Registry.builtin Personality.playful.profile
  have hreplay : Session.replay (.ofTwoDecisions 0 1) Registry.builtin = .ok s :=
    Session.replay_eq rfl
  refine ⟨bs, s, hdecode, hreplay, ?_, ?_⟩
  · obtain ⟨h, hplay⟩ :
        ∃ h, (Script.reseedAfterOne.program.play (.ofSession s Clock.zero)).2 = h := ⟨_, rfl⟩
    have hmode : h.session.mode = .replaying ⟨.ofTwoDecisions 0 1, 1⟩ := by
      rw [← hplay]
      rfl
    have hnext : h.session.next = 0 := by
      rw [← hplay]
      rfl
    have hlasts : h.session.isReplaying = true := by
      unfold Session.isReplaying
      rw [hmode]
    obtain ⟨lag, hplace, -, -⟩ := replay_goes_by_place hdecode hreplay Clock.zero
      Script.reseedAfterOne hplay hlasts
    have hlag := hplace.mode
    rw [hmode, hnext, Nat.zero_add, Mode.replaying.injEq, Cursor.mk.injEq] at hlag
    rw [hnext, Nat.zero_add, ← hlag.2] at hplace
    exact ⟨h, hplay, hlasts, hnext, hplace⟩
  · obtain ⟨h, hplay⟩ :
        ∃ h, (Script.reseedBeforeOne.program.play (.ofSession s Clock.zero)).2 = h := ⟨_, rfl⟩
    have hnext : h.session.next = 1 := by
      rw [← hplay]
      rfl
    have hlasts : h.session.isReplaying = true := by
      rw [← hplay]
      rfl
    have hseeds : Script.reseedBeforeOne.SeedsFirst (.ofSession s Clock.zero) := by
      refine ⟨?_, trivial⟩
      rintro seed - cursor hcursor
      cases hcursor
      rfl
    obtain ⟨lag, hplace, hfirst, -⟩ := replay_goes_by_place hdecode hreplay Clock.zero
      Script.reseedBeforeOne hplay hlasts
    rw [hfirst hseeds, hnext] at hplace
    exact ⟨h, hplay, hlasts, hnext, hplace⟩

/-- The live number is not the recorded one in a log with a gap, nor after a new seed. An outcome
with number 3 is handed out for number 0, and a fault at place 1 names number 0. -/
theorem Log.replay_number_comes_apart :
    (∃ bs s, decode bs = .ok (ofTwoDecisions 3 5) ∧
      Session.replay (ofTwoDecisions 3 5) Registry.builtin = .ok s ∧
      s.mode = .replaying ⟨ofTwoDecisions 3 5, 0⟩ ∧ s.next = 0 ∧
      (ofTwoDecisions 3 5).decisions[0]?.map Decision.seq = some 3 ∧
      ((Program.evaluate .maybe ⟨1⟩ (.condition false)).play (.ofSession s Clock.zero)).1 =
        .ok (.bool true)) ∧
    ∃ bs s h, decode bs = .ok (ofTwoDecisions 0 1) ∧
      Session.replay (ofTwoDecisions 0 1) Registry.builtin = .ok s ∧
      (Script.reseedAfterOne.program.play (.ofSession s Clock.zero)).2 = h ∧
      h.session.mode = .replaying ⟨ofTwoDecisions 0 1, 1⟩ ∧ h.session.next = 0 ∧
      (ofTwoDecisions 0 1).decisions[1]?.map Decision.seq = some 1 ∧
      ((Program.evaluate .sometimes ⟨1⟩ (.condition true)).play h).1 =
        .error (.replayDivergence 0 ⟨1⟩ .fuzzyBool .sometimes) := by
  obtain ⟨bs, hdecode⟩ := decode_ofTwoDecisions (show (3 : UInt64) < 5 by decide)
  obtain ⟨bs', hdecode'⟩ := decode_ofTwoDecisions (show (0 : UInt64) < 1 by decide)
  exact ⟨⟨bs, _, hdecode, Session.replay_eq rfl, rfl, rfl, rfl, rfl⟩,
    bs', _, _, hdecode', Session.replay_eq rfl, rfl, rfl, rfl, rfl, rfl⟩

end Fickle

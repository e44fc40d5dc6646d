import Mountin.Basic.Online
import Mountin.Disk.DmgPlist

set_option autoImplicit false

/-! # The relay of the 9front appliance

`serial_relay.py`: the console of the guest is searched for a marker line, and from there on the
bytes of the guest go to the one client and the client's to the guest. The search keeps only the end
of what it has read.

* `waitForMarker_iff` : it ends with the chunk that completes a marker line, wherever the chunks begin.
* `relayed` : no byte of either side is lost, changed or sent twice.
-/

namespace Mountin.SerialRelay

open Dmg

/-! ## The program -/

/-- `b"\n"`. -/
def NEWLINE : UInt8 := 10

/-- `pending[-n:]`, which is all of it for 0. -/
def lastBytes (n : Nat) (pending : Bytes) : Bytes :=
  if n = 0 then pending else pending.drop (pending.length - n)

/-- `wait_for_marker` on the chunks that `recv` returns before the end of the stream: what it writes to
the standard output, and the chunks that it leaves, or nothing where it raises `ConnectionError`. -/
def waitForMarker (marker : Bytes) : Bytes → List Bytes → Bytes × Option (List Bytes)
  | _, [] => ([], none)
  | pending, data :: stream =>
      match findBytes marker (pending ++ data) with
      | some markerAt =>
          if NEWLINE ∈ (pending ++ data).drop (markerAt + marker.length) then (data, some stream)
          else
            let r := waitForMarker marker ((pending ++ data).drop markerAt) stream
            (data ++ r.1, r.2)
      | none =>
          let r := waitForMarker marker (lastBytes (marker.length - 1) (pending ++ data)) stream
          (data ++ r.1, r.2)

inductive Peer where
  | guest
  | client
deriving DecidableEq, Repr

/-- What `forward` sends. -/
structure Sent where
  toGuest : Bytes
  toClient : Bytes

/-- `forward` on what `recv` returns, by the side that sent it, in the order in which `select` finds it. -/
def forward : List (Peer × Bytes) → Sent
  | [] => ⟨[], []⟩
  | (source, data) :: events =>
      if data = [] then ⟨[], []⟩
      else
        match source with
        | .guest => { forward events with toClient := data ++ (forward events).toClient }
        | .client => { forward events with toGuest := data ++ (forward events).toGuest }

/-! ## The search -/

/-- A marker line that is complete. -/
def Ready (marker data : Bytes) : Prop :=
  ∃ i, marker <+: data.drop i ∧ NEWLINE ∈ data.drop (i + marker.length)

/-- What the search tests. -/
def seen (marker pending : Bytes) : Bool :=
  match findBytes marker pending with
  | some markerAt => decide (NEWLINE ∈ pending.drop (markerAt + marker.length))
  | none => false

/-- What the search keeps. -/
def kept (marker pending : Bytes) : Bytes :=
  match findBytes marker pending with
  | some markerAt => pending.drop markerAt
  | none => lastBytes (marker.length - 1) pending

theorem firstAt_of_findBytes {marker data : Bytes} {i : Nat} (h : findBytes marker data = some i) :
    FirstAt marker data i := by
  by_cases hne : marker = []
  · subst hne
    have hzero : i = 0 := by
      cases data with
      | nil => exact (Option.some.inj h).symm
      | cons b data => exact (Option.some.inj h).symm
    exact ⟨List.nil_prefix, fun j hj => absurd hj (by omega)⟩
  · exact (findBytes_eq_some_iff hne).mp h

theorem not_occurs_of_none {marker data : Bytes} (h : findBytes marker data = none) (i : Nat) :
    ¬ marker <+: data.drop i := by
  by_cases hne : marker = []
  · subst hne
    cases data with
    | nil => cases h
    | cons b data => cases h
  · exact not_occurs_of_findBytes hne h i

theorem Ready.append {marker a : Bytes} (h : Ready marker a) (b : Bytes) : Ready marker (a ++ b) := by
  obtain ⟨i, hocc, hnl⟩ := h
  refine ⟨i, ?_, ?_⟩
  · rw [List.drop_append]
    exact hocc.trans (List.prefix_append _ _)
  · rw [List.drop_append]
    exact List.mem_append_left _ hnl

theorem not_ready_nil (marker : Bytes) : ¬ Ready marker [] := by
  rintro ⟨i, -, hnl⟩
  rw [List.drop_nil] at hnl
  cases hnl

/-- The first marker has a newline behind it if any has. -/
theorem seen_iff {marker pending : Bytes} : seen marker pending = true ↔ Ready marker pending := by
  unfold seen
  split
  · rename_i markerAt hfind
    obtain ⟨hocc, hfirst⟩ := firstAt_of_findBytes hfind
    rw [decide_eq_true_eq]
    constructor
    · exact fun hnl => ⟨markerAt, hocc, hnl⟩
    · rintro ⟨i, hi, hnl⟩
      have hle : markerAt ≤ i := Nat.le_of_not_lt fun hlt => hfirst i hlt hi
      rw [show i + marker.length = (markerAt + marker.length) + (i - markerAt) by omega,
        ← List.drop_drop] at hnl
      exact List.mem_of_mem_drop hnl
  · rename_i hfind
    refine iff_of_false Bool.false_ne_true ?_
    rintro ⟨i, hi, -⟩
    exact not_occurs_of_none hfind i hi

instance (marker data : Bytes) : Decidable (Ready marker data) :=
  decidable_of_iff (seen marker data = true) seen_iff

/-- Bytes in front of which no marker can begin may be dropped. -/
theorem sameFuture_drop {marker pending : Bytes} {k : Nat} (hk : k ≤ pending.length)
    (hroom : ∀ i < k, i + marker.length ≤ pending.length)
    (hnone : ∀ i < k, ¬ marker <+: pending.drop i) :
    SameFuture (Ready marker) pending (pending.drop k) := by
  intro more
  rw [← List.drop_append_of_le_length hk]
  constructor
  · rintro ⟨i, hocc, hnl⟩
    rcases Nat.lt_or_ge i k with hlt | hge
    · -- the marker would lie in what has come before
      have hend := hroom i hlt
      rw [List.drop_append_of_le_length (by omega)] at hocc
      refine absurd (List.prefix_of_prefix_length_le hocc (List.prefix_append _ _) ?_) (hnone i hlt)
      rw [List.length_drop]
      omega
    · refine ⟨i - k, ?_, ?_⟩
      · rwa [List.drop_drop, show k + (i - k) = i by omega]
      · rwa [List.drop_drop, show k + (i - k + marker.length) = i + marker.length by omega]
  · rintro ⟨i, hocc, hnl⟩
    rw [List.drop_drop] at hocc hnl
    exact ⟨k + i, hocc, by rwa [Nat.add_assoc]⟩

theorem sameFuture_kept (marker pending : Bytes) :
    SameFuture (Ready marker) pending (kept marker pending) := by
  unfold kept
  split
  · rename_i markerAt hfind
    obtain ⟨hocc, hfirst⟩ := firstAt_of_findBytes hfind
    have hlen := hocc.length_le
    rw [List.length_drop] at hlen
    rcases Nat.lt_or_ge pending.length markerAt with hlt | hle
    · rw [List.drop_of_length_le (Nat.le_of_lt hlt)] at hocc
      exact absurd (by rwa [List.drop_length]) (hfirst pending.length hlt)
    · exact sameFuture_drop hle (fun i hi => by omega) hfirst
  · rename_i hfind
    unfold lastBytes
    split_ifs with hone
    · exact .refl _ _
    · exact sameFuture_drop (Nat.sub_le _ _) (fun i hi => by omega) fun i _ => not_occurs_of_none hfind i

theorem waitForMarker_eq (marker : Bytes) (stream : List Bytes) (pending : Bytes) :
    (waitForMarker marker pending stream).2 =
      online (Ready marker) (kept marker) pending stream := by
  induction stream generalizing pending with
  | nil => rfl
  | cons data stream ih =>
      rw [waitForMarker, online, if_congr seen_iff.symm rfl rfl, seen, kept]
      cases findBytes marker (pending ++ data) with
      | none => exact ih _
      | some markerAt =>
          dsimp only
          rw [if_congr decide_eq_true_eq.to_iff rfl rfl]
          split_ifs
          · rfl
          · exact ih _

theorem waitForMarker_output (marker : Bytes) {stream rest : List Bytes} {pending : Bytes}
    (h : (waitForMarker marker pending stream).2 = some rest) :
    (waitForMarker marker pending stream).1 ++ rest.flatten = stream.flatten := by
  induction stream generalizing pending with
  | nil => cases h
  | cons data stream ih =>
      rw [waitForMarker] at h ⊢
      split at h
      · split_ifs at h ⊢
        · rw [Option.some.inj h]
          rfl
        · dsimp only at h ⊢
          rw [List.append_assoc, ih h]
          rfl
      · dsimp only at h ⊢
        rw [List.append_assoc, ih h]
        rfl

/-- **The search does not see the chunks**: it ends with the chunk that completes a marker line in all
that the guest has written, and raises where no line is completed. -/
theorem waitForMarker_iff (marker : Bytes) (stream : List Bytes) :
    (∀ rest, (waitForMarker marker [] stream).2 = some rest ↔ ∃ used data, stream = used ++ data :: rest ∧
        ¬ Ready marker used.flatten ∧ Ready marker (used.flatten ++ data)) ∧
      ((waitForMarker marker [] stream).2 = none ↔ ¬ Ready marker stream.flatten) := by
  have hmono : ∀ a b, Ready marker a → Ready marker (a ++ b) := fun _ b h => h.append b
  have hkeep : ∀ a, ¬ Ready marker a → SameFuture (Ready marker) a (kept marker a) :=
    fun a _ => sameFuture_kept marker a
  refine ⟨fun rest => ?_, ?_⟩
  · rw [waitForMarker_eq, online_eq_some_iff hmono hkeep (not_ready_nil marker) (.refl _ _)]
    simp only [List.nil_append]
  · rw [waitForMarker_eq, online_eq_none_iff hmono hkeep (not_ready_nil marker) (.refl _ _),
      List.nil_append]

/-! ## The relay -/

/-- What one side has sent. -/
def received (peer : Peer) (events : List (Peer × Bytes)) : Bytes :=
  ((events.filter fun e => decide (e.1 = peer)).map Prod.snd).flatten

theorem forward_spec (events : List (Peer × Bytes)) :
    (forward events).toClient = received .guest (events.takeWhile fun e => decide (e.2 ≠ [])) ∧
      (forward events).toGuest = received .client (events.takeWhile fun e => decide (e.2 ≠ [])) := by
  induction events with
  | nil => exact ⟨rfl, rfl⟩
  | cons e events ih =>
      obtain ⟨source, data⟩ := e
      rw [List.takeWhile_cons]
      by_cases hend : data = []
      · rw [if_neg (by simpa using hend)]
        cases source with
        | guest => rw [forward, if_pos hend]; exact ⟨rfl, rfl⟩
        | client => rw [forward, if_pos hend]; exact ⟨rfl, rfl⟩
      · rw [if_pos (by simpa using hend)]
        cases source with
        | guest =>
            rw [forward, if_neg hend]
            exact ⟨congrArg (data ++ ·) ih.1, ih.2⟩
        | client =>
            rw [forward, if_neg hend]
            exact ⟨ih.1, congrArg (data ++ ·) ih.2⟩

theorem received_takeWhile (peer : Peer) (events : List (Peer × Bytes)) (p : Peer × Bytes → Bool) :
    received peer (events.takeWhile p) <+: received peer events := by
  obtain ⟨rest, hrest⟩ := List.takeWhile_prefix (l := events) p
  refine ⟨received peer rest, ?_⟩
  conv_rhs => rw [← hrest]
  rw [received, received, received, List.filter_append, List.map_append, List.flatten_append]

/-- **No byte is lost, changed or sent twice**: the console and then the client have what the guest has
written up to some byte, and the guest has what the client has written up to some byte. -/
theorem relayed {marker : Bytes} {stream rest : List Bytes} {events : List (Peer × Bytes)}
    (hwait : (waitForMarker marker [] stream).2 = some rest)
    (hguest : received .guest events <+: rest.flatten) :
    (waitForMarker marker [] stream).1 ++ (forward events).toClient <+: stream.flatten ∧
      (forward events).toGuest <+: received .client events := by
  obtain ⟨hclient, hback⟩ := forward_spec events
  rw [← waitForMarker_output marker hwait, hclient, hback]
  exact ⟨(List.prefix_append_right_inj _).mpr ((received_takeWhile _ _ _).trans hguest),
    received_takeWhile _ _ _⟩

end Mountin.SerialRelay

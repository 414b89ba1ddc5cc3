import SignedPrefixes.Proofs.Content.Guarded
import SignedPrefixes.Proofs.Record.Fields
import SignedPrefixes.Record.Guarded

/-!
# Taking records makes no mistake

Each look at the octets that remain is a look at enough of them, the length of a prefix is
compared with its family before the prefix is made, and the number of prefixes is compared with
the octets before room for them is asked for. So whatever the octets are, none of the guarded
calls is a misuse, and records are taken as if nothing had to be guarded. Together with what
is known of content, no octets at all lead to a misuse.
-/

namespace SignedPrefixes

namespace Wire

open StateExcept

variable {α β : Type} {os : Octets}

/-- A guarded routine takes what another one takes, and its only stops are the errors of the
other. -/
def Mirrors (guarded : Guarded.Take α) (take : Take α) : Prop :=
  ∀ os, guarded os = (take os).mapError Stop.error

section Laws

variable {x : Guarded.Take α} {y : Take α} {f : α → Guarded.Take β} {g : α → Take β}

/-- Nothing is taken for a value. -/
theorem Mirrors.pure (a : α) : Mirrors (pure a) (pure a) := fun _ => rfl

/-- An error is a stop by this error. -/
theorem Mirrors.fail (e : WireError) : Mirrors (Guarded.fail e : Guarded.Take α) (throw e) :=
  fun _ => rfl

/-- What is made up of two parts mirrors another routine if both parts do. -/
theorem Mirrors.bind (hx : Mirrors x y) (hf : ∀ a, Mirrors (f a) (g a)) :
    Mirrors (x >>= f) (y >>= g) := by
  intro os
  cases hy : y os with
  | error e =>
    have hstop : x os = .error (.error e) := by rw [hx, hy]; rfl
    rw [bind_of_error hstop, bind_of_error hy]
    rfl
  | ok p =>
    obtain ⟨a, rest⟩ := p
    have hdone : x os = .ok (a, rest) := by rw [hx, hy]; rfl
    rw [bind_of_ok hdone, bind_of_ok hy]
    exact hf a rest

/-- A function of a value is applied alike. -/
theorem Mirrors.map (hx : Mirrors x y) (f : α → β) :
    Mirrors (x >>= fun a => Pure.pure (f a)) (f <$> y) := by
  rw [← bind_pure_comp]
  exact hx.bind fun a => .pure (f a)

/-- Routines that decide by the same condition mirror each other if both branches do. -/
theorem Mirrors.ite {c : Prop} [Decidable c] {x' : Guarded.Take α} {y' : Take α}
    (hx : Mirrors x y) (hx' : Mirrors x' y') :
    Mirrors (if c then x else x') (if c then y else y') := by
  split
  · exact hx
  · exact hx'

/-- A check that fails with the same error keeps two routines alike. -/
theorem Mirrors.check {c : Prop} [Decidable c] (e : WireError) {f : PUnit → Guarded.Take α}
    {g : PUnit → Take α} (h : Mirrors (f ⟨⟩) (g ⟨⟩)) :
    Mirrors (if c then Guarded.fail e >>= f else f ⟨⟩) (if c then throw e >>= g else g ⟨⟩) := by
  split
  · exact fun _ => rfl
  · exact h

end Laws

section Taking

/-- Octets that are there are not missed. -/
theorem need_of_le {n : ℕ} (h : n ≤ os.length) : Guarded.need n os = .ok ((), os) := by
  unfold Guarded.need
  rw [bind_of_ok get_apply, branch_apply, if_neg (Nat.not_lt.mpr h)]
  rfl

/-- Octets that are not there are missed before they are taken. -/
theorem need_of_lt {n : ℕ} (h : os.length < n) :
    Guarded.need n os = .error (.error .shortInput) := by
  unfold Guarded.need
  rw [bind_of_ok get_apply, branch_apply, if_pos h]
  rfl

/-- One octet is looked for and taken. -/
theorem mirrors_octet : Mirrors Guarded.octet octet := by
  intro os
  cases os <;> rfl

/-- Octets that are there are taken from the front. -/
theorem octets_of_le {n : ℕ} (h : n ≤ os.length) : octets n os = .ok (os.take n, os.drop n) :=
  octets_eq_ok_iff.mpr ⟨(List.take_append_drop n os).symm, List.length_take_of_le h⟩

/-- Octets that are not there are short input. -/
theorem octets_of_lt {n : ℕ} (h : os.length < n) : octets n os = .error .shortInput := by
  rw [octets, Octets.splitAt?_eq_none_iff.mpr h]

/-- Octets that were looked for are there. -/
theorem mirrors_octets (n : ℕ) :
    Mirrors (Guarded.need n >>= fun _ => Guarded.take n) (octets n) := by
  intro os
  by_cases h : n ≤ os.length
  · rw [bind_of_ok (need_of_le h), Guarded.take, if_pos h, octets_of_le h]
    rfl
  · have hshort := Nat.lt_of_not_le h
    rw [bind_of_error (need_of_lt hshort), octets_of_lt hshort]
    rfl

/-- Octets that are looked for together are there one after the other. -/
theorem mirrors_octets_octet {f : Octets → UInt8 → Guarded.Take α} {g : Octets → UInt8 → Take α}
    (n : ℕ) (h : ∀ front o, Mirrors (f front o) (g front o)) :
    Mirrors
      (Guarded.need (n + 1) >>= fun _ => Guarded.take n >>= fun front =>
        Guarded.takeOctet >>= fun o => f front o)
      (octets n >>= fun front => octet >>= fun o => g front o) := by
  intro os
  by_cases hn : n ≤ os.length
  · rw [bind_of_ok (octets_of_le hn)]
    cases hdrop : os.drop n with
    | nil =>
      have hshort : os.length < n + 1 := Nat.lt_succ_of_le (List.drop_eq_nil_iff.mp hdrop)
      exact bind_of_error (need_of_lt hshort) _
    | cons o rest =>
      have hlength : n + 1 ≤ os.length := by
        have hrest := congrArg List.length hdrop
        rw [List.length_drop, List.length_cons] at hrest
        omega
      have htake : Guarded.take n os = .ok (os.take n, o :: rest) := by
        rw [Guarded.take, if_pos hn, hdrop]
      rw [bind_of_ok (need_of_le hlength), bind_of_ok htake]
      exact h _ _ rest
  · have hshort := Nat.lt_of_not_le hn
    rw [bind_of_error (need_of_lt (hshort.trans (Nat.lt_succ_self n))),
      bind_of_error (octets_of_lt hshort)]
    rfl

end Taking

/-- Four octets are looked for and taken. -/
theorem mirrors_nat32 : Mirrors Guarded.nat32 nat32 := by
  unfold Guarded.nat32
  rw [← bind_assoc]
  exact (mirrors_octets 4).map _

/-- Eight octets are looked for and taken. -/
theorem mirrors_int64 : Mirrors Guarded.int64 int64 := by
  unfold Guarded.int64
  rw [← bind_assoc]
  exact (mirrors_octets 8).bind fun _ => .pure _

/-- A flag is one octet and a check of it. -/
theorem mirrors_flag : Mirrors Guarded.flag flag :=
  mirrors_octet.bind fun _ => .ite (.pure _) (.ite (.pure _) (.fail _))

/-- A time is eight octets and a check of them. -/
theorem mirrors_time : Mirrors Guarded.time time := by
  refine mirrors_int64.bind fun seconds => ?_
  cases Time.ofSeconds? seconds with
  | none => exact .fail _
  | some t => exact .pure t

/-- A length that the family has fits the words, and the prefix that they make fits the family. -/
theorem mirrors_prefixOf (family : Family) (address : Address) (length : UInt8) :
    Mirrors (Guarded.prefixOf family address length)
      (((Prefix.new? address length.toNat).bind (IpPrefix.new? family)).elim (throw .invalidPrefix)
        fun p => if p.bits.address = address then return p else throw .invalidPrefix) := by
  unfold Guarded.prefixOf
  by_cases h : length.toNat ≤ family.width
  · have hle : length.toNat ≤ 128 := h.trans family.width_le
    -- The length fits the family, so making the words and the prefix does not fail.
    obtain ⟨bits, hbits⟩ : ∃ bits, Prefix.ofAddress address length.toNat hle = bits := ⟨_, rfl⟩
    have hlength : bits.length ≤ family.width := by
      rw [← hbits]
      exact h
    have hnew : (Prefix.new? address length.toNat).bind (IpPrefix.new? family) =
        some ⟨family, bits, hlength⟩ := by
      rw [Prefix.new?, dif_pos hle, Option.bind_some, hbits, IpPrefix.new?, dif_pos hlength]
    have hwords : (PrefixWords.new address.bits length : Except (Stop WireError) PrefixWords) =
        .ok (.ofPrefix bits) := by
      have hnarrow := PrefixWords.new_ofNat (ε := WireError) address hle
      rwa [UInt8.ofNat_toNat, hbits] at hnarrow
    have hsame : (PrefixWords.ofPrefix bits).bits = address.bits ↔ bits.address = address :=
      ⟨fun hbits => Address.ext_toNat (congrArg BitVec.toNat hbits), congrArg Address.bits⟩
    rw [if_neg (Nat.not_lt.mpr h), hwords, hnew]
    intro os
    change (if _ then _ else _ : Guarded.Take IpPrefix) os = _
    by_cases haddress : bits.address = address
    · have hfits :
          (PrefixWords.ofPrefix bits).toIpPrefix? family = some ⟨family, bits, hlength⟩ := by
        rw [PrefixWords.toIpPrefix?_ofPrefix, IpPrefix.new?, dif_pos hlength]
      rw [if_neg (not_not.mpr (hsame.mpr haddress)), hfits, Option.elim_some, if_pos haddress]
      rfl
    · rw [if_pos (mt hsame.mp haddress), Option.elim_some, if_neg haddress]
      rfl
  · have hnone : (Prefix.new? address length.toNat).bind (IpPrefix.new? family) = none := by
      rw [Option.bind_eq_none_iff]
      intro bits hbits
      unfold Prefix.new? at hbits
      split_ifs at hbits
      cases hbits
      exact dif_neg h
    rw [if_pos (Nat.lt_of_not_le h), hnone]
    exact fun _ => rfl

/-- A prefix is looked for as a whole before its parts are taken. -/
theorem mirrors_ipPrefix : Mirrors Guarded.ipPrefix ipPrefix := by
  refine mirrors_octet.bind fun afi => ?_
  cases Family.ofAfi? afi with
  | none => exact .fail _
  | some family =>
    refine mirrors_octets_octet 16 fun front o => ?_
    have hprefix := mirrors_prefixOf family (.ofOctets front) o
    cases hp : (Prefix.new? (.ofOctets front) o.toNat).bind (IpPrefix.new? family) <;>
      rw [hp] at hprefix <;> exact hprefix

/-- Prefixes are taken one by one, each after a look for it. -/
theorem mirrors_ipPrefixes (n : ℕ) (before : Option IpPrefix) :
    Mirrors (Guarded.ipPrefixes n before) (ipPrefixes n before) := by
  induction n generalizing before with
  | zero => exact .pure _
  | succ n ih =>
    exact mirrors_ipPrefix.bind fun p => .check _ ((ih (some p)).bind fun _ => .pure _)

/-- A text is looked for as a whole after its length. -/
theorem mirrors_string : Mirrors Guarded.string string := by
  refine mirrors_nat32.bind fun n => .check _ ?_
  rw [← bind_assoc]
  refine (mirrors_octets n).bind fun os => ?_
  cases String.fromUTF8? os.toByteArray with
  | none => exact .fail _
  | some s => exact .pure s

/-- Where there are octets for all prefixes, room for them may be asked for. -/
theorem mirrors_reserve {count : ℕ} {f : Unit → Guarded.Take α} {g : Unit → Take α}
    (h : Mirrors (f ()) (g ())) :
    Mirrors
      (get >>= fun os : Octets => if os.length / prefixSize < count
        then Guarded.fail .shortInput >>= fun _ : PUnit => Guarded.reserve count >>= f
        else Guarded.reserve count >>= f)
      (get >>= fun os : Octets => if os.length / prefixSize < count
        then throw .shortInput >>= g else g ()) := by
  intro os
  rw [bind_of_ok get_apply, bind_of_ok get_apply, branch_apply, branch_apply]
  split_ifs with hcount
  · rfl
  · have hreserve : Guarded.reserve count os = .ok ((), os) := by
      have hroom : ¬os.length < prefixSize * count := by
        rw [Nat.not_lt, Nat.le_div_iff_mul_le (by decide), Nat.mul_comm] at hcount
        exact Nat.not_lt.mpr hcount
      unfold Guarded.reserve
      rw [bind_of_ok get_apply, branch_apply, if_neg hroom]
      rfl
    rw [bind_of_ok hreserve]
    exact h os

/-- A record is taken alike with all looks at the octets and without. -/
theorem mirrors_record : Mirrors Guarded.record record := by
  refine mirrors_flag.bind fun valid => mirrors_nat32.bind fun asn => mirrors_nat32.bind fun tal =>
    mirrors_nat32.bind fun count => mirrors_time.bind fun expires => mirrors_reserve ?_
  refine (mirrors_ipPrefixes count none).bind fun prefixes => ?_
  exact mirrors_string.bind fun aia => mirrors_string.bind fun aki => mirrors_string.bind fun ski =>
    .pure _

end Wire

/-- There is no misuse, whatever is read. Content and records come to the same with all calls
guarded and without. Content is never refused because a prefix that was read does not fit its
family or is longer than an address.

No loop of the readers is cut short on the way. Its steps take octets when they find something
(`Ber.shrinks_gatherPart?`, `Content.shrinks_nextPrefix?`, `Content.shrinks_nextBlock?`), and such
a loop goes on until nothing is found (`Ber.Reader.iterate_eq`). -/
theorem no_misuse :
    (∀ policy os, Content.Guarded.decode policy os =
      (Content.decode policy os).mapError (Ber.Failure.map Stop.error)) ∧
    (∀ policy os failure m, Content.Guarded.decode policy os = .error failure →
      failure.cause ≠ .content (.misuse m)) ∧
    (∀ policy os failure e, Content.decode policy os = .error failure →
      failure.cause = .content e →
        e.message ≠ "invalid prefix encoding" ∧ e ≠ .bits .lengthOverflow) ∧
    (∀ os, Wire.Guarded.record os = (Record.decode os).mapError Stop.error) ∧
    ∀ os m, Wire.Guarded.record os ≠ .error (.misuse m) := by
  refine ⟨fun policy os => (Content.decode_alike policy os).1, ?_, ?_, Wire.mirrors_record, ?_⟩
  · intro policy os failure m h
    rw [(Content.decode_alike policy os).1] at h
    cases hdecode : Content.decode policy os with
    | ok c =>
      rw [hdecode] at h
      cases h
    | error failure' =>
      rw [hdecode] at h
      obtain ⟨cause, place⟩ := failure'
      cases h
      cases cause <;> nofun
  · intro policy os failure e h hcause
    have hoccurs := (Content.decode_alike policy os).2 failure e h hcause
    exact ⟨hoccurs.message_ne, hoccurs.2⟩
  · intro os m h
    rw [Wire.mirrors_record os] at h
    cases hrecord : Wire.record os <;> rw [hrecord] at h <;> cases h

/-- The octets of a record that announces more prefixes than there can be, and ends there. -/
def boastfulOctets : Octets :=
  [1, 0, 0, 251, 240, 0, 0, 0, 1, 255, 255, 255, 255, 0, 0, 0, 0, 0, 0, 0, 0, 1]

/-- No room is asked for where the announced prefixes cannot be there. -/
theorem no_misuse_boastful :
    Record.decode boastfulOctets = .error .shortInput ∧
      Wire.Guarded.record boastfulOctets = .error (.error .shortInput) := by
  have hshort : Record.decode boastfulOctets = .error .shortInput := by decide +kernel
  obtain ⟨-, -, -, hguarded, -⟩ := no_misuse
  refine ⟨hshort, ?_⟩
  rw [hguarded, hshort]
  rfl

end SignedPrefixes

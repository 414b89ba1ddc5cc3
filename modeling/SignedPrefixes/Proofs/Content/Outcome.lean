import SignedPrefixes.Content.Raw
import SignedPrefixes.Content.Reader
import SignedPrefixes.Proofs.Ber.Primitive

/-!
# Decoding what is written

Whatever follows the notation can be written and decoded. Decoding comes to what
checking the raw content comes to, also if that is a failure, whose cause is the
same. The loops of the reader are folds over the values that are written, and
these folds are the recursions by which raw content is checked.
-/

namespace SignedPrefixes

open Ber Ber.Reader StateExcept

variable {policy : Policy} {family : Family} {enclosing : ℕ} {rules : Rules} {inp out : Input}

/-- A value is shorter than its encoding. -/
theorem Der.length_lt_primitive (identifier : UInt8) (os : Octets) :
    os.length < (Der.primitive identifier os).length := by
  rw [Der.primitive, List.length_cons, List.length_append]
  omega

/-- One encoding is no longer than several of them together. -/
theorem length_le_length_flatMap {α : Type} (encode : α → Octets) {x : α} {xs : List α}
    (hx : x ∈ xs) : (encode x).length ≤ (xs.flatMap encode).length := by
  rw [List.length_flatMap]
  exact List.le_sum_of_mem (List.mem_map_of_mem hx)

/-- A policy asks for DER if it is strict. -/
theorem rulesOf_eq_der_iff : Content.rulesOf policy = .der ↔ policy.strict = true := by
  unfold Content.rulesOf
  split_ifs with hstrict <;> simp [hstrict]

/-- An integer comes to what checking it as an AS number comes to. -/
theorem Asn.outcome_reader {n : ℤ} (hlength : (Der.integer n).length < 2 ^ 32)
    (htake : inp.Takes (Der.integer n) out) :
    outcome (Asn.reader rules inp) =
      ((RawContent.checkAsn n).mapError .content).map fun asn => (asn, out) := by
  have hcontent := Der.length_lt_primitive Tag.integer (Der.integerOctets n)
  rw [Asn.reader, outcome_map, outcome_unsigned32 (hcontent.trans hlength) htake,
    RawContent.checkAsn]
  split_ifs <;> rfl

/-- An octet string comes to the family that it names. -/
theorem Family.outcome_reader {os : Octets} (hlength : (Der.octetString os).length < 2 ^ 32)
    (htake : inp.Takes (Der.octetString os) out) :
    outcome (Family.reader rules enclosing inp) =
      Except.map (fun family => (family, out))
        (match ofOctets? os with
        | none => .error (.content .unknownFamily)
        | some family => .ok family) := by
  have hcontent := Der.length_lt_primitive Tag.octetString os
  unfold Family.reader
  rw [bind_of_ok (octetString_of_takes (hcontent.trans hlength) htake)]
  cases ofOctets? os <;> rfl

/-- The bits that a bit string stands for under a policy. -/
def Prefix.check (policy : Policy) (family : Family) (s : BitString) :
    Except (Cause Refusal) Prefix :=
  if policy.strict ∧ s.hasUnusedBits then .error (.encoding .unusedBitsSet)
  else (ofBitString family policy.strict s).mapError fun fault => .content (.bits fault)

/-- A bit string comes to what checking its bits comes to. -/
theorem Prefix.outcome_reader? {s : BitString} (hlength : (Der.bitString s).length < 2 ^ 32)
    (htake : inp.Takes (Der.bitString s) out) :
    outcome (Prefix.reader? (Content.rulesOf policy) family policy.strict enclosing inp) =
      (Prefix.check policy family s).map fun p => (some p, out) := by
  have hcontent := Der.length_lt_primitive Tag.bitString (UInt8.ofNat s.unused :: s.octets)
  have hbits : outcome ((bitString? (Content.rulesOf policy) : Reader Refusal _) inp) = _ :=
    outcome_bitString? (hcontent.trans hlength) htake
  simp only [rulesOf_eq_der_iff] at hbits
  unfold Prefix.reader? Prefix.check
  by_cases hset : policy.strict = true ∧ s.hasUnusedBits = true
  · rw [if_pos hset] at hbits ⊢
    rw [outcome_bind hbits fun _ _ => rfl]
    rfl
  · rw [if_neg hset] at hbits ⊢
    rw [outcome_bind hbits fun _ _ => rfl]
    change outcome _ = _
    dsimp only
    cases ofBitString family policy.strict s <;> rfl

namespace RawBlock

/-- The prefix that a bit string stands for after the prefix before it, with `count`
prefixes before in all blocks. -/
def checkPrefix (policy : Policy) (family : Family) (count : ℕ) (before : Option IpPrefix)
    (s : BitString) : Except (Cause Refusal) IpPrefix :=
  Prefix.check policy family s >>= fun bits =>
    match IpPrefix.new? family bits with
    | none => .error (.content .misfit)
    | some p =>
      if before.any (p ≤ ·) then .error (.content .unsorted)
      else if policy.maxPrefixes ≤ count + 1 then .error (.content .manyPrefixes)
      else .ok p

/-- A bit string that stands for bits of the family is compared with the prefix before it
first, then counted. -/
theorem checkPrefix_of_check {count : ℕ} {before : Option IpPrefix} {s : BitString} {bits : Prefix}
    {p : IpPrefix} (hbits : Prefix.check policy family s = .ok bits)
    (hp : IpPrefix.new? family bits = some p) :
    checkPrefix policy family count before s =
      if before.any (p ≤ ·) then .error (.content .unsorted)
      else if policy.maxPrefixes ≤ count + 1 then .error (.content .manyPrefixes)
      else .ok p := by
  unfold checkPrefix
  rw [hbits]
  simp only [bind, Except.bind, hp]

/-- Bit strings are checked one after the other, each after the prefix of the one before. -/
theorem checkPrefixes_cons (count : ℕ) (before : Option IpPrefix) (s : BitString)
    (rest : List BitString) :
    checkPrefixes policy family count before (s :: rest) =
      checkPrefix policy family count before s >>= fun p =>
        (checkPrefixes policy family (count + 1) (some p) rest).map fun ps => p :: ps := by
  rw [checkPrefixes]
  unfold checkPrefix Prefix.check
  by_cases hset : policy.strict = true ∧ s.hasUnusedBits = true
  · rw [if_pos hset, if_pos hset]
    rfl
  · rw [if_neg hset, if_neg hset]
    cases Prefix.ofBitString family policy.strict s with
    | error fault => rfl
    | ok bits =>
      change (match IpPrefix.new? family bits with | none => _ | some p => _) =
        (match IpPrefix.new? family bits with | none => _ | some p => _) >>= _
      cases IpPrefix.new? family bits with
      | none => rfl
      | some p =>
        dsimp only
        split_ifs <;> rfl

end RawBlock

namespace Content

section Prefixes

variable {progress : Progress} {before : ℕ}

/-- What a bit string makes of the prefixes of a block. -/
def checkNext (policy : Policy) (family : Family) (progress : Progress) (s : BitString) :
    Except (Cause Refusal) Progress :=
  (RawBlock.checkPrefix policy family progress.count progress.reversed.head? s).map fun p =>
    ⟨p :: progress.reversed, progress.count + 1⟩

/-- The next bit string comes to what checking it as the next prefix comes to. -/
theorem outcome_nextPrefix? {s : BitString} (hlength : (Der.bitString s).length < 2 ^ 32)
    (htake : inp.Takes (Der.bitString s) out) :
    outcome (nextPrefix? (rulesOf policy) policy family enclosing progress inp) =
      (checkNext policy family progress s).map fun progress' => (some progress', out) := by
  unfold nextPrefix? checkNext RawBlock.checkPrefix
  rw [except_map_bind, except_map_bind]
  apply outcome_bind (Prefix.outcome_reader? hlength htake)
  intro bits _
  dsimp only
  cases IpPrefix.new? family bits with
  | none => rfl
  | some p =>
    dsimp only
    split_ifs <;> rfl

/-- There is no next prefix at the end of the sequence. -/
theorem nextPrefix?_of_limit (hlimit : inp.limit = some 0) :
    nextPrefix? rules policy family enclosing progress inp = .ok (none, inp) := by
  have hnone : Prefix.reader? rules family policy.strict enclosing inp = .ok (none, inp) := by
    unfold Prefix.reader?
    rw [bind_of_ok (bitString?_of_limit hlimit)]
    rfl
  unfold nextPrefix?
  rw [bind_of_ok hnone]
  rfl

/-- Checking bit strings one by one is checking them from the first one on. -/
theorem foldlM_checkNext (ss : List BitString) (reversed : List IpPrefix) (count : ℕ) :
    ss.foldlM (checkNext policy family) ⟨reversed, count⟩ =
      (RawBlock.checkPrefixes policy family count reversed.head? ss).map fun ps =>
        ⟨ps.reverse ++ reversed, count + ps.length⟩ := by
  induction ss generalizing reversed count with
  | nil => rfl
  | cons s ss ih =>
    rw [List.foldlM_cons, RawBlock.checkPrefixes_cons, checkNext]
    cases RawBlock.checkPrefix policy family count reversed.head? s with
    | error cause => rfl
    | ok p =>
      change ss.foldlM (checkNext policy family) ⟨p :: reversed, count + 1⟩ =
        Except.map _ (Except.map _ (RawBlock.checkPrefixes policy family (count + 1) (some p) ss))
      rw [ih]
      cases hrest : RawBlock.checkPrefixes policy family (count + 1) (some p) ss with
      | error cause =>
        rw [List.head?_cons, hrest]
        rfl
      | ok ps =>
        rw [List.head?_cons, hrest]
        simp [Except.map, Nat.add_comm, Nat.add_left_comm]

/-- A sequence of bit strings comes to what checking them comes to. -/
theorem outcome_readPrefixes {ss : List BitString}
    (hlength : (Der.sequence (ss.flatMap Der.bitString)).length < 2 ^ 32)
    (htake : inp.Takes (Der.sequence (ss.flatMap Der.bitString)) out) :
    outcome (readPrefixes (rulesOf policy) policy family before inp) =
      (RawBlock.checkPrefixes policy family before none ss).map fun ps => (ps, out) := by
  have hcontent := (Der.length_lt_primitive _ _).trans hlength
  apply outcome_sequence hcontent htake
  intro start inner inner' hinner hend
  have hloop : outcome (iterate (nextPrefix? (rulesOf policy) policy family start)
        ⟨[], before⟩ inner) =
      (ss.foldlM (checkNext policy family) ⟨[], before⟩).map
        fun progress => (progress, inner') := by
    apply outcome_iterate _ _ (fun _ _ => nextPrefix?_of_limit) hinner hend
    · intro s _
      exact List.cons_ne_nil _ _
    · intro s hs progress reached reached' htakes
      have hle := length_le_length_flatMap Der.bitString hs
      exact outcome_nextPrefix? (by omega) htakes
  rw [outcome_bind hloop fun _ _ => rfl, foldlM_checkNext]
  cases hcheck : RawBlock.checkPrefixes policy family before none ss with
  | error cause =>
    rw [List.head?_nil, hcheck]
    rfl
  | ok ps =>
    rw [List.head?_nil, hcheck]
    simp [Except.map, bind, Except.bind]

end Prefixes

section Blocks

variable {blocks : List Block}

/-- What a block as it may be written makes of the blocks before it. -/
def checkNextBlock (policy : Policy) (blocks : List Block) (b : RawBlock) :
    Except (Cause Refusal) (List Block) :=
  (b.checkFamily (blocks.reverse.map (·.family))).mapError .content >>= fun family =>
    RawBlock.checkPrefixes policy family (blocks.flatMap (·.prefixes)).length none b.prefixes >>=
      fun ps => if ps.isEmpty then .error (.content .emptyBlock) else .ok (⟨family, ps⟩ :: blocks)

/-- The family of a block is refused for the same reason, whichever form the blocks before
it have. -/
theorem checkFamily_eq (b : RawBlock) :
    b.checkFamily (blocks.reverse.map (·.family)) =
      if 2 ≤ blocks.length then .error .manyBlocks
      else
        match Family.ofOctets? b.family with
        | none => .error .unknownFamily
        | some family =>
          match familyRefusal? family blocks with
          | some refusal => .error refusal
          | none => .ok family := by
  unfold RawBlock.checkFamily familyRefusal?
  rw [List.length_map, List.length_reverse]
  cases Family.ofOctets? b.family with
  | none => rfl
  | some family =>
    have hmem (f : Family) : f ∈ blocks.reverse.map (·.family) ↔ blocks.any (·.family = f) := by
      simp [List.any_eq_true]
    simp only [hmem]
    split_ifs <;> rfl

/-- The next block comes to what checking it after the others comes to. -/
theorem outcome_nextBlock? {b : RawBlock} (hlength : b.encode.length < 2 ^ 32)
    (htake : inp.Takes b.encode out) :
    outcome (nextBlock? (rulesOf policy) policy blocks inp) =
      (checkNextBlock policy blocks b).map fun blocks' => (some blocks', out) := by
  have hcontent := (Der.length_lt_primitive _ _).trans hlength
  have hfamily := Der.length_lt_primitive Tag.octetString b.family
  rw [List.length_append] at hcontent
  apply outcome_constructed? (by decide) (by rw [List.length_append]; exact hcontent) htake
  intro start inner inner' hinner hend
  obtain ⟨mid, hfirst, hrest⟩ := hinner.split
  unfold checkNextBlock
  rw [checkFamily_eq]
  dsimp only
  rw [branch_apply]
  -- Both sides look at the number of blocks, the family, its place and the prefixes in turn.
  by_cases hmany : 2 ≤ blocks.length
  · rw [if_pos hmany, if_pos hmany, bind_of_error (refuse_apply _ _)]
    rfl
  · rw [if_neg hmany, if_neg hmany]
    have hfamily : outcome (Family.reader (rulesOf policy) start inner) = _ :=
      Family.outcome_reader (by omega) hfirst
    cases hof : Family.ofOctets? b.family with
    | none =>
      rw [hof] at hfamily
      rw [outcome_bind hfamily fun _ _ => rfl]
      rfl
    | some family =>
      rw [hof] at hfamily
      rw [bind_of_ok (outcome_eq_ok_iff.mp hfamily)]
      cases hrefusal : familyRefusal? family blocks with
      | some refusal =>
        dsimp only
        rw [bind_of_error (refuse_apply _ _)]
        simp only [hrefusal]
        rfl
      | none =>
        simp only [hrefusal]
        change outcome ((readPrefixes _ _ _ _ >>= _) mid) =
          Except.map _ (RawBlock.checkPrefixes policy family _ none b.prefixes >>= _)
        rw [except_map_bind]
        apply outcome_bind (outcome_readPrefixes (by omega) hrest)
        intro ps _
        dsimp only
        rw [branch_apply]
        split_ifs <;> rfl

/-- There is no next block at the end of the sequence. -/
theorem nextBlock?_of_limit (hlimit : inp.limit = some 0) :
    nextBlock? rules policy blocks inp = .ok (none, inp) := constructed?_of_limit hlimit

/-- Blocks are checked one after the other: the family, each prefix, and that there is one. -/
theorem checkBlocks_cons (before : List Family) (count : ℕ) (b : RawBlock) (rest : List RawBlock) :
    RawContent.checkBlocks policy before count (b :: rest) =
      (b.checkFamily before).mapError .content >>= fun family =>
        RawBlock.checkPrefixes policy family count none b.prefixes >>= fun ps =>
          if ps.isEmpty then .error (.content .emptyBlock)
          else
            (RawContent.checkBlocks policy (before ++ [family]) (count + ps.length) rest).map
              fun qs => ps ++ qs := by
  rw [RawContent.checkBlocks]
  cases (b.checkFamily before).mapError Cause.content with
  | error cause => rfl
  | ok family =>
    change (RawBlock.checkPrefixes policy family count none b.prefixes >>= _) =
      RawBlock.checkPrefixes policy family count none b.prefixes >>= _
    cases RawBlock.checkPrefixes policy family count none b.prefixes with
    | error cause => rfl
    | ok ps =>
      change ite _ _ _ = ite _ _ _
      split_ifs <;> rfl

/-- Checking blocks one by one is checking them from the first one on. -/
theorem foldlM_checkNextBlock (bs : List RawBlock) (blocks : List Block) :
    (bs.foldlM (checkNextBlock policy) blocks).map
        (fun blocks' => blocks'.reverse.flatMap (·.prefixes)) =
      (RawContent.checkBlocks policy (blocks.reverse.map (·.family))
          (blocks.flatMap (·.prefixes)).length bs).map
        fun ps => blocks.reverse.flatMap (·.prefixes) ++ ps := by
  induction bs generalizing blocks with
  | nil =>
    rw [RawContent.checkBlocks]
    simp [Except.map, pure, Except.pure]
  | cons b bs ih =>
    rw [List.foldlM_cons, checkBlocks_cons, checkNextBlock]
    cases (b.checkFamily (blocks.reverse.map (·.family))).mapError Cause.content with
    | error cause => rfl
    | ok family =>
      change Except.map _ ((RawBlock.checkPrefixes policy family _ none b.prefixes >>= _) >>= _) =
        Except.map _ (RawBlock.checkPrefixes policy family _ none b.prefixes >>= _)
      cases RawBlock.checkPrefixes policy family _ none b.prefixes with
      | error cause => rfl
      | ok ps =>
        change Except.map _ (ite _ _ _ >>= _) = Except.map _ (ite _ _ _)
        by_cases hempty : ps.isEmpty = true
        · rw [if_pos hempty, if_pos hempty]
          rfl
        · rw [if_neg hempty, if_neg hempty]
          -- The block that was found is the last one so far, so it comes first in the collected
          -- list.
          have hrest := ih (⟨family, ps⟩ :: blocks)
          have hbefore : (Block.mk family ps :: blocks).reverse.map (·.family) =
              blocks.reverse.map (·.family) ++ [family] := by simp
          have hcount : ((Block.mk family ps :: blocks).flatMap (·.prefixes)).length =
              (blocks.flatMap (·.prefixes)).length + ps.length := by
            simp [Nat.add_comm]
          rw [hbefore, hcount] at hrest
          refine hrest.trans ?_
          cases RawContent.checkBlocks policy _ _ bs with
          | error cause => rfl
          | ok qs => simp [Except.map]

/-- The loop over the blocks that are written is the fold of their checks. -/
theorem outcome_readBlocks {bs : List RawBlock}
    (hlength : (Der.sequence (bs.flatMap RawBlock.encode)).length < 2 ^ 32)
    (htake : inp.Takes (Der.sequence (bs.flatMap RawBlock.encode)) out) :
    outcome (sequence (rulesOf policy)
        (fun _ => iterate (nextBlock? (rulesOf policy) policy) []) inp) =
      (bs.foldlM (checkNextBlock policy) []).map fun blocks => (blocks, out) := by
  have hcontent := (Der.length_lt_primitive (Tag.sequence ||| Tag.constructedBit)
    (bs.flatMap RawBlock.encode)).trans hlength
  apply outcome_sequence hcontent htake
  intro _ inner inner' hinner hend
  apply outcome_iterate _ _ (fun _ _ => nextBlock?_of_limit) hinner hend
  · intro b _
    exact List.cons_ne_nil _ _
  · intro b hb blocks reached reached' htakes
    have hle := length_le_length_flatMap RawBlock.encode hb
    exact outcome_nextBlock? (hle.trans_lt hcontent) htakes

end Blocks

section Version

variable {strict : Bool}

/-- A version that is written comes to what checking it comes to. -/
theorem outcome_readVersion {version : ℤ}
    (hlength : (RawContent.encodeVersion (some version)).length < 2 ^ 32)
    (htake : inp.Takes (RawContent.encodeVersion (some version)) out) :
    outcome (readVersion rules strict enclosing inp) =
      ((RawContent.checkVersion strict (some version)).mapError .content).map
        fun _ => ((), out) := by
  have hcontent := (Der.length_lt_primitive _ (Der.integer version)).trans hlength
  have hinteger := (Der.length_lt_primitive _ (Der.integerOctets version)).trans hcontent
  have hread : outcome (constructed? rules Tag.context0
        (fun _ => unsigned32 rules Refusal.unsupportedVersion) inp) = _ :=
    outcome_constructed? (by decide) hcontent htake fun _ _ _ hinner _ =>
      outcome_unsigned32 hinteger hinner
  unfold readVersion RawContent.checkVersion
  by_cases hrange : 0 ≤ version ∧ version < UInt32.size
  · rw [if_pos hrange] at hread
    rw [bind_of_ok (outcome_eq_ok_iff.mp hread)]
    -- The number has 32 bits, so it is zero exactly if the integer is.
    have hzero : UInt32.ofNat version.toNat = 0 ↔ version = 0 := by
      have hvalue : (UInt32.ofNat version.toNat).toNat = version.toNat :=
        UInt32.toNat_ofNat_of_lt (by omega)
      rw [← UInt32.toNat_inj, hvalue, UInt32.toNat_zero]
      omega
    simp only [branch_apply, ne_eq, hzero]
    split_ifs <;> rfl
  · rw [if_neg hrange] at hread
    rw [outcome_bind hread fun _ _ => rfl]
    have hne : version ≠ 0 := by
      rintro rfl
      exact hrange (by decide)
    change _ = Except.map _ (Except.mapError _ (ite _ _ _))
    rw [if_pos hne]
    rfl

/-- An integer with its own tag is no version and is left alone. -/
theorem readVersion_of_integer {n : ℤ} (hlength : (Der.integer n).length < 2 ^ 32)
    (htake : inp.Takes (Der.integer n) out) :
    readVersion rules strict enclosing inp = .ok ((), inp) := by
  have hcontent := (Der.length_lt_primitive Tag.integer (Der.integerOctets n)).trans hlength
  have hnone : constructed? rules Tag.context0
      (fun _ => unsigned32 rules Refusal.unsupportedVersion) inp = .ok (none, inp) :=
    constructed?_of_other Tag.integer false (by decide) (by decide)
      hcontent htake
  unfold readVersion
  rw [bind_of_ok hnone]
  rfl

/-- A version that may be left out is read from what is written for it in front of an integer. -/
theorem outcome_readVersion_of_integer {version : Option ℤ} {n : ℤ} {after : Input}
    (hlength : (RawContent.encodeVersion version).length < 2 ^ 32)
    (hinteger : (Der.integer n).length < 2 ^ 32)
    (hversion : inp.Takes (RawContent.encodeVersion version) after)
    (htake : after.Takes (Der.integer n) out) :
    outcome (readVersion rules strict enclosing inp) =
      ((RawContent.checkVersion strict version).mapError .content).map fun _ => ((), after) := by
  cases version with
  | none =>
    obtain rfl := hversion.eq_of_nil
    rw [readVersion_of_integer hinteger htake]
    rfl
  | some version => exact outcome_readVersion hlength hversion

end Version

/-- Reading raw content that is written comes to what checking it comes to. -/
theorem outcome_reader {raw : RawContent} (hlength : raw.encode.length < 2 ^ 32)
    (htake : inp.Takes raw.encode out) :
    outcome (reader (rulesOf policy) policy inp) = (raw.check policy).map fun c => (c, out) := by
  have hcontent := (Der.length_lt_primitive _ _).trans hlength
  apply outcome_sequence hcontent htake
  intro start inner inner' hinner hend
  rw [List.length_append, List.length_append] at hcontent
  obtain ⟨afterVersion, hversion, hrest⟩ := hinner.split
  obtain ⟨afterAsn, hasn, hblocks⟩ := hrest.split
  unfold RawContent.check
  rw [except_map_bind]
  apply outcome_bind (outcome_readVersion_of_integer (by omega) (by omega) hversion hasn)
  intro _ _
  dsimp only
  rw [except_map_bind]
  apply outcome_bind (Asn.outcome_reader (by omega) hasn)
  intro asn _
  dsimp only
  have hfold : _ = Except.map _ (RawContent.checkBlocks policy [] 0 raw.blocks) :=
    foldlM_checkNextBlock raw.blocks []
  have hchain (folded : Except (Cause Refusal) (List Block)) :
      (folded >>= fun blocks =>
          .ok ((⟨asn, blocks.reverse.flatMap (·.prefixes)⟩ : Content), inner')) =
        (folded.map fun blocks => blocks.reverse.flatMap (·.prefixes)).map
          fun ps => (⟨asn, ps⟩, inner') := by
    cases folded <;> rfl
  have hblocksLength : (Der.sequence (raw.blocks.flatMap RawBlock.encode)).length < 2 ^ 32 := by
    omega
  refine (outcome_bind (outcome_readBlocks hblocksLength hblocks) fun _ _ => rfl).trans
    ((hchain _).trans ?_)
  rw [hfold]
  cases RawContent.checkBlocks policy [] 0 raw.blocks <;> rfl

end Content

end SignedPrefixes

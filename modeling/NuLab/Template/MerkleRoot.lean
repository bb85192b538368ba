import NuLab.Json.Dropped
import NuLab.Merkle.Root
import NuLab.Template.Code

/-! # The Merkle root of a template

The program decodes the objects' `hash` values where their `txid` values make up the
Merkle tree.  Where the scanner delivers each object's own `hash` and nothing else, the
header's root is the right one if both values of every object stand for the same bytes,
and otherwise only if two different pairs of nodes have the same hash.
-/

namespace NuLab.Template

open NuLab.CString NuLab.Dca NuLab.Hex NuLab.Json NuLab.Levels NuLab.Merkle

/-! ## What the objects hold -/

/-- The objects' values of this tag stand for these hashes. -/
def Carries (listing : Listing) (tag : Tag) (ids : List BcHash32) : Prop :=
  List.Forall₂ (fun object id => (jsonFindTagValue listing.text object tag.key).bind
    (bcHash32FromCspan listing.text) = some id) listing.extents ids

/-- The search comes to the `hash` value of each object, one object after the other, each
time from behind the furthest of the three values that are found, and in the end one of
the three is missing. -/
inductive OnlyOwn (memory : List UInt8) : Nat → List NuCspan → Prop where
  | done {cursor : Nat} (nothing : viewIn memory ⟨cursor, memory.length⟩ = none) :
      OnlyOwn memory cursor []
  | own {cursor : Nat} {object : NuCspan} {objects : List NuCspan} {tx : BcTxView}
      (found : viewIn memory ⟨cursor, memory.length⟩ = some tx)
      (hash : jsonFindTagValue memory object tagHash = some tx.hash)
      (rest : OnlyOwn memory (furthest tx) objects) : OnlyOwn memory cursor (object :: objects)

/-- The scanner is in nobody's way. -/
def Scanned (listing : Listing) : Prop :=
  OnlyOwn listing.text listing.cursor listing.extents

/-- The header has the Merkle root of these hashes. -/
def HasRoot (ids : List BcHash32) (header : BcBlockHeader) : Prop :=
  reduce hashPair ids = some header.hashMerkleRoot

/-! ## What is stored and decoded -/

section

variable {memory : List UInt8} {mem : Nat → Bool}

/-- Each view has the `hash` value of its object. -/
def OwnHashes (memory : List UInt8) (objects : List NuCspan) (views : List BcTxView) : Prop :=
  List.Forall₂ (fun object tx => jsonFindTagValue memory object tagHash = some tx.hash)
    objects views

/-- A scan after which the program goes on has stored one view for each object. -/
theorem scanLoop_own {cursor : Nat} {objects : List NuCspan} (only : OnlyOwn memory cursor objects)
    {txs after : List BcTxView}
    (served : (scanLoop memory memory.length (txViewDcaAppend mem) cursor (some txs)).2 =
      some after) : ∃ views, OwnHashes memory objects views ∧ after = txs ++ views := by
  induction only generalizing txs with
  | @done cursor nothing =>
    rw [scanLoop_none nothing] at served
    obtain rfl := Option.some.inj served
    exact ⟨[], List.Forall₂.nil, (List.append_nil _).symm⟩
  | @own cursor object objects tx found hash rest inductionHypothesis =>
    have inside := (viewIn_inside found).1
    have round := scanRound_view found
    by_cases room : mem txs.length
    · have called : txViewDcaAppend mem (some txs) tx = (0, some (txs ++ [tx])) := if_pos room
      rw [scanLoop_accepted inside round (by rw [called]), called] at served
      obtain ⟨views, own, rfl⟩ := inductionHypothesis served
      exact ⟨tx :: views, List.Forall₂.cons hash own, by rw [List.append_assoc]; rfl⟩
    · have called : txViewDcaAppend mem (some txs) tx = (1, none) := if_neg room
      rw [scanLoop_refused inside round (by rw [called]; decide), called] at served
      cases served

end

theorem mapM_eq_some_iff {α β : Type} {f : α → Option β} {list : List α} {results : List β} :
    list.mapM f = some results ↔ List.Forall₂ (fun a b => f a = some b) list results := by
  induction list generalizing results with
  | nil => simp [eq_comm]
  | cons a list inductionHypothesis =>
    simp only [List.mapM_cons, Option.bind_eq_bind, Option.bind_eq_some_iff,
      List.forall₂_cons_left_iff, inductionHypothesis]
    constructor
    · rintro ⟨b, first, rest, later, done⟩
      exact ⟨b, rest, first, later, (Option.some.inj done).symm⟩
    · rintro ⟨b, rest, first, later, rfl⟩
      exact ⟨b, first, rest, later, rfl⟩

theorem forall₂_trans {α β γ : Type} {R : α → β → Prop} {S : β → γ → Prop} {T : α → γ → Prop}
    (step : ∀ a b c, R a b → S b c → T a c) {as : List α} {bs : List β} {cs : List γ}
    (first : List.Forall₂ R as bs) (second : List.Forall₂ S bs cs) : List.Forall₂ T as cs := by
  induction first generalizing cs with
  | nil =>
    cases second
    exact List.Forall₂.nil
  | cons head tail inductionHypothesis =>
    cases second with
    | cons head' tail' =>
      exact List.Forall₂.cons (step _ _ _ head head') (inductionHypothesis tail')

/-- What is decoded from the stored views is what the objects carry. -/
theorem decoded_iff {listing : Listing} {views : List BcTxView} {hashes : List BcHash32}
    (own : OwnHashes listing.text listing.extents views) :
    views.mapM (fun tx => bcHash32FromCspan listing.text tx.hash) = some hashes ↔
      Carries listing .hash hashes := by
  rw [mapM_eq_some_iff]
  constructor
  · refine fun decoded => forall₂_trans (fun object tx hash value spelled => ?_) own decoded
    show (jsonFindTagValue listing.text object tagHash).bind _ = some hash
    rw [value, Option.bind_some, spelled]
  · refine fun carries => forall₂_trans (fun tx object hash value spelled => ?_) own.flip carries
    change (jsonFindTagValue listing.text object tagHash).bind _ = some hash at spelled
    rw [value, Option.bind_some] at spelled
    exact spelled

theorem Carries.unique {listing : Listing} {tag : Tag} {first second : List BcHash32}
    (carries : Carries listing tag first) (again : Carries listing tag second) :
    first = second :=
  Relator.RightUnique.forall₂ (fun _ _ _ one other => Option.some.inj (one.symm.trans other))
    carries again

/-! ## The program -/

theorem assemble_root {memory : List UInt8} {json : NuCspan} {root : BcHash32}
    {header : BcBlockHeader} (assembled : assemble memory json root = some header) :
    header.hashMerkleRoot = root := by
  simp only [assemble, Option.bind_eq_bind, Option.bind_eq_some_iff] at assembled
  obtain ⟨_, -, _, -, _, -, _, -, _, -, same⟩ := assembled
  rw [← Option.some.inj same]

theorem main_text {memory : List UInt8} (nonempty : memory ≠ []) (mem : Allocations) :
    main 2 (some memory) mem = parseTemplate mem memory := by
  cases memory with
  | nil => exact absurd rfl nonempty
  | cons first rest => rfl

theorem text_ne_nil (listing : Listing) : listing.text ≠ [] := by
  intro empty
  have length := congrArg List.length empty
  simp [Listing.text] at length

/-- A run to the end puts the root of what it has decoded into the header. -/
theorem parseTemplate_root {mem : Allocations} {memory : List UInt8} {header : BcBlockHeader}
    (ran : parseTemplate mem memory = some (0, some header)) :
    ∃ ec txArr hashes, readTxsFromJson mem.views memory [] ⟨0, memory.length⟩ = some (ec, txArr) ∧
      txArr.mapM (fun tx => bcHash32FromCspan memory tx.hash) = some hashes ∧
      HasRoot hashes header := by
  obtain ⟨⟨ec, txArr⟩, scanned, ran⟩ := Option.bind_eq_some_iff.mp ran
  dsimp only at ran
  split_ifs at ran with failed
  · simp at ran
  · obtain ⟨-, -, ran⟩ := Option.bind_eq_some_iff.mp ran
    obtain ⟨hashes, decoded, ran⟩ := Option.bind_eq_some_iff.mp ran
    obtain ⟨⟨code, ids, elems⟩, computed, ran⟩ := Option.bind_eq_some_iff.mp ran
    obtain ⟨root, first, ran⟩ := Option.bind_eq_some_iff.mp ran
    obtain ⟨block, assembled, ran⟩ := Option.bind_eq_some_iff.mp ran
    obtain rfl : block = header := by simpa using ran
    refine ⟨ec, txArr, hashes, scanned, decoded, ?_⟩
    -- a result with a first element comes from at least one hash and from granted memory
    have several : hashes ≠ [] := by
      rintro rfl
      cases computed
      cases first
    cases granted : mem.merkle with
    | none =>
      have positive : ¬ hashes.length < 1 := Nat.not_lt.mpr (List.length_pos_iff.mpr several)
      simp [granted, bcMerkleRoot, positive, consumeElems] at computed
    | some fresh =>
      obtain ⟨root', consumed, isRoot, run, -, first'⟩ := bcMerkleRoot_run hashes [] fresh several
      rw [granted, run, List.nil_append] at computed
      cases computed
      obtain rfl := Option.some.inj (first.symm.trans first')
      rw [HasRoot, isRoot, assemble_root assembled]

/-- The root in the header is the one of the objects' `hash` values. -/
theorem main_root {listing : Listing} {mem : Allocations} {header : BcBlockHeader}
    (scanned : Scanned listing) (ran : main 2 (some listing.text) mem = some (0, some header)) :
    ∃ hashes, Carries listing .hash hashes ∧ HasRoot hashes header := by
  rw [main_text (text_ne_nil listing)] at ran
  obtain ⟨ec, txArr, hashes, stored, decoded, root⟩ := parseTemplate_root ran
  obtain ⟨cursor, key⟩ := listing.strstr_txns
  rw [readTxsFromJson_some key, Option.map_eq_some_iff] at stored
  obtain ⟨after, served, same⟩ := stored
  obtain rfl : after = txArr := congrArg Prod.snd same
  rw [Scanned, listing.cursor_eq key] at scanned
  obtain ⟨views, own, rfl⟩ := scanLoop_own scanned served
  exact ⟨hashes, (decoded_iff own).mp decoded, root⟩

/-- Where the scanner is in nobody's way, the root is the one of the `txid` values if the two values
of every transaction stand for the same bytes, and otherwise only with different pairs of nodes
that have the same hash. -/
theorem merkle_root_txids (listing : Listing) (mem : Allocations) (header : BcBlockHeader)
    (ids : List BcHash32) (carried : Carries listing .txid ids)
    (ran : main 2 (some listing.text) mem = some (0, some header)) :
    (Scanned listing ∧ Carries listing .hash ids → HasRoot ids header) ∧
      (Scanned listing → HasRoot ids header → Carries listing .hash ids ∨
        ∃ hashes, Carries listing .hash hashes ∧ Clash hashPair hashes ids) := by
  constructor
  · rintro ⟨scanned, same⟩
    obtain ⟨hashes, carries, root⟩ := main_root scanned ran
    rw [same.unique carries]
    exact root
  · intro scanned hasRoot
    obtain ⟨hashes, carries, root⟩ := main_root scanned ran
    have length : hashes.length = ids.length := carries.length_eq.symm.trans carried.length_eq
    cases eq_of_reduce hashPair length (root.trans hasRoot.symm) with
    | inl lists => exact Or.inl (lists ▸ carries)
    | inr clash => exact Or.inr ⟨hashes, carries, clash⟩

/-! ## Templates with two transactions -/

/-- There is memory for everything. -/
def enough (txids merkle : Nat → BcHash32) : Allocations := ⟨fun _ => true, some txids, some merkle⟩

/-- With memory, with transactions and with its fields the text gets a header. -/
theorem main_assembles {listing : Listing} {hashes : List BcHash32} (scanned : Scanned listing)
    (carries : Carries listing .hash hashes) (nonempty : hashes ≠ [])
    (fields : ∀ root, ∃ header,
      assemble listing.text ⟨0, listing.text.length⟩ root = some header)
    (txids merkle : Nat → BcHash32) :
    ∃ header, main 2 (some listing.text) (enough txids merkle) = some (0, some header) := by
  obtain ⟨cursor, key⟩ := listing.strstr_txns
  have stores : (scanLoop listing.text listing.text.length (txViewDcaAppend fun _ => true)
      (cursor + (tagTxns.length + 1)) (some [])).2.isSome := by
    apply scanLoop_invariant (fun txs : Option (List BcTxView) => txs.isSome = true)
    · rintro (_ | txs) tx present
      · cases present
      · rfl
    · rfl
  obtain ⟨after, served⟩ := Option.isSome_iff_exists.mp stores
  rw [Scanned, listing.cursor_eq key] at scanned
  obtain ⟨views, own, rfl⟩ := scanLoop_own scanned served
  obtain ⟨root, consumed, -, run, -, first⟩ := bcMerkleRoot_run hashes [] merkle nonempty
  obtain ⟨header, assembled⟩ := fields root
  refine ⟨header, ?_⟩
  rw [main_text (text_ne_nil listing), parseTemplate]
  simp only [enough, readTxsFromJson_some key, served, List.nil_append, Option.map_some,
    Option.bind_eq_bind, Option.bind_some, ne_eq, not_true_eq_false, if_false, consumeElems,
    (decoded_iff own).mpr carries, run, first, assembled]

def fieldsText : List UInt8 :=
  text "\x7b\"bits\":\"1d00ffff\",\"height\":1,\"mintime\":2,\"previousblockhash\":\"" ++
    (List.replicate 64 48 ++ (text "\",\"target\":\"" ++ (List.replicate 64 48 ++ text "\",")))

/-- Its `txid` and its `hash` are written with ones. -/
def firstObject : List UInt8 :=
  text "[\x7b\"data\":\"00\",\"txid\":\"" ++ (List.replicate 64 49 ++
    (text "\",\"hash\":\"" ++ (List.replicate 64 49 ++ text "\"\x7d")))

/-- The members in another order, the `txid` written with threes. -/
def secondObject (digit : UInt8) : List UInt8 :=
  text ",\x7b\"hash\":\"" ++ (List.replicate 64 digit ++
    (text "\",\"txid\":\"" ++ (List.replicate 64 51 ++ text "\",\"data\":\"01\"\x7d")))

def twoText (digit : UInt8) : List UInt8 :=
  fieldsText ++ (tagTxns ++ (58 :: ([firstObject, secondObject digit].flatten ++ text "]\x7d")))

theorem twoText_noNul : ∀ digit ∈ [51, 52], (twoText digit).all (· ≠ 0) = true := by
  decide +kernel

/-- Two legacy transactions for the digit three, and for the digit four a second one whose `hash` is
not its `txid`. -/
def twoObjects (digit : UInt8) (either : digit ∈ [51, 52]) : Listing where
  front := fieldsText
  next := 58
  objects := [firstObject, secondObject digit]
  back := text "]\x7d"
  noNul := all_chars (twoText_noNul digit either)

def firstView : BcTxView := ⟨⟨242, 306⟩, ⟨316, 380⟩, ⟨230, 232⟩⟩

def secondView : BcTxView := ⟨⟨466, 530⟩, ⟨392, 456⟩, ⟨540, 542⟩⟩

theorem twoText_places : ∀ digit ∈ [51, 52],
    strstr (twoText digit) 0 tagTxns = some 205 ∧
      extents (fieldsText.length + (tagTxns.length + 1)) [firstObject, secondObject digit] =
        [⟨220, 382⟩, ⟨382, 544⟩] := by decide +kernel

theorem twoText_views : ∀ digit ∈ [51, 52],
    viewIn (twoText digit) ⟨220, 382⟩ = some firstView ∧
      viewIn (twoText digit) ⟨382, 544⟩ = some secondView := by decide +kernel

theorem twoText_rounds : ∀ digit ∈ [51, 52],
    viewIn (twoText digit) ⟨220, (twoText digit).length⟩ = some firstView ∧
      viewIn (twoText digit) ⟨380, (twoText digit).length⟩ = some secondView ∧
      viewIn (twoText digit) ⟨542, (twoText digit).length⟩ = none := by decide +kernel

theorem twoObjects_scanned (digit : UInt8) (either : digit ∈ [51, 52]) :
    Scanned (twoObjects digit either) := by
  obtain ⟨key, places⟩ := twoText_places digit either
  obtain ⟨first, second⟩ := twoText_views digit either
  have places : (twoObjects digit either).extents = [⟨220, 382⟩, ⟨382, 544⟩] := places
  have start : (twoObjects digit either).cursor = 220 := (twoObjects digit either).cursor_eq key
  obtain ⟨firstRound, secondRound, nothing⟩ := twoText_rounds digit either
  rw [Scanned, start, places]
  exact OnlyOwn.own firstRound ((viewIn_iff _ _ _).mp first .hash)
    (OnlyOwn.own secondRound ((viewIn_iff _ _ _).mp second .hash) (OnlyOwn.done nothing))

/-- What the two objects carry is what their spans spell. -/
theorem twoObjects_carries {digit : UInt8} (either : digit ∈ [51, 52]) {tag : Tag}
    {first second : BcHash32}
    (firstSpelled : bcHash32FromCspan (twoText digit) (firstView.span tag) = some first)
    (secondSpelled : bcHash32FromCspan (twoText digit) (secondView.span tag) = some second) :
    Carries (twoObjects digit either) tag [first, second] := by
  obtain ⟨firstFound, secondFound⟩ := twoText_views digit either
  have places : (twoObjects digit either).extents = [⟨220, 382⟩, ⟨382, 544⟩] :=
    (twoText_places digit either).2
  rw [Carries, places]
  refine List.Forall₂.cons ?_ (List.Forall₂.cons ?_ List.Forall₂.nil)
  · show (jsonFindTagValue (twoText digit) _ _).bind (bcHash32FromCspan (twoText digit)) = _
    rw [(viewIn_iff _ _ _).mp firstFound tag, Option.bind_some, firstSpelled]
  · show (jsonFindTagValue (twoText digit) _ _).bind (bcHash32FromCspan (twoText digit)) = _
    rw [(viewIn_iff _ _ _).mp secondFound tag, Option.bind_some, secondSpelled]

theorem twoText_spelled :
    (∀ digit ∈ [51, 52],
      bcHash32FromCspan (twoText digit) firstView.txid = some (Vector.replicate 32 0x11) ∧
        bcHash32FromCspan (twoText digit) firstView.hash = some (Vector.replicate 32 0x11) ∧
        bcHash32FromCspan (twoText digit) secondView.txid = some (Vector.replicate 32 0x33)) ∧
      bcHash32FromCspan (twoText 51) secondView.hash = some (Vector.replicate 32 0x33) ∧
      bcHash32FromCspan (twoText 52) secondView.hash = some (Vector.replicate 32 0x44) := by
  decide +kernel

theorem twoText_fields : ∀ digit ∈ [51, 52],
    (jsonFindHeight (twoText digit) ⟨0, (twoText digit).length⟩).isSome ∧
      (jsonFindMintime (twoText digit) ⟨0, (twoText digit).length⟩).isSome ∧
      (jsonFindBits (twoText digit) ⟨0, (twoText digit).length⟩).isSome ∧
      ((jsonFindTarget (twoText digit) ⟨0, (twoText digit).length⟩).bind
        (bcHash32FromCspan (twoText digit))).isSome ∧
      ((jsonFindPrevblock (twoText digit) ⟨0, (twoText digit).length⟩).bind
        (bcHash32FromCspan (twoText digit))).isSome := by decide +kernel

/-- The fields in front of the transactions are found. -/
theorem twoText_assembled {digit : UInt8} (either : digit ∈ [51, 52]) (root : BcHash32) :
    ∃ header, assemble (twoText digit) ⟨0, (twoText digit).length⟩ root = some header := by
  obtain ⟨height, mintime, bits, target, prevBlock⟩ := twoText_fields digit either
  obtain ⟨height, heightFound⟩ := Option.isSome_iff_exists.mp height
  obtain ⟨mintime, mintimeFound⟩ := Option.isSome_iff_exists.mp mintime
  obtain ⟨bits, bitsFound⟩ := Option.isSome_iff_exists.mp bits
  obtain ⟨target, targetFound⟩ := Option.isSome_iff_exists.mp target
  obtain ⟨prevBlock, prevBlockFound⟩ := Option.isSome_iff_exists.mp prevBlock
  simp only [assemble, heightFound, mintimeFound, bitsFound, targetFound, prevBlockFound,
    Option.map_some, Option.bind_eq_bind, Option.bind_some]
  exact ⟨_, rfl⟩

/-- Memory for everything, with zeros in it. -/
def zeroed : Allocations :=
  enough (fun _ => Vector.replicate 32 0) fun _ => Vector.replicate 32 0

theorem twoObjects_ends {digit : UInt8} (either : digit ∈ [51, 52]) {hashes : List BcHash32}
    (carries : Carries (twoObjects digit either) .hash hashes) (nonempty : hashes ≠ []) :
    ∃ header, main 2 (some (twoObjects digit either).text) zeroed = some (0, some header) :=
  main_assembles (twoObjects_scanned digit either) carries nonempty (twoText_assembled either) _ _

theorem merkle_root_txids_legacy :
    ∃ header, main 2 (some (twoObjects 51 (by decide)).text) zeroed = some (0, some header) ∧
      HasRoot [Vector.replicate 32 0x11, Vector.replicate 32 0x33] header := by
  obtain ⟨spelled, secondHash, -⟩ := twoText_spelled
  obtain ⟨firstTxid, firstHash, secondTxid⟩ := spelled 51 (by decide)
  have txids := @twoObjects_carries 51 (by decide) .txid _ _ firstTxid secondTxid
  have hashes := @twoObjects_carries 51 (by decide) .hash _ _ firstHash secondHash
  have scanned := twoObjects_scanned 51 (by decide)
  obtain ⟨header, ran⟩ := twoObjects_ends _ hashes (List.cons_ne_nil _ _)
  exact ⟨header, ran, (merkle_root_txids _ _ header _ txids ran).1 ⟨scanned, hashes⟩⟩

theorem pairs_differ : hashPair (Vector.replicate 32 0x11) (Vector.replicate 32 0x33) ≠
    hashPair (Vector.replicate 32 0x11) (Vector.replicate 32 0x44) := by decide +kernel

/-- Every object carries both values and the scanner finds them all, but the root is another one. -/
theorem merkle_root_of_hash :
    ¬ ∀ (listing : Listing) (mem : Allocations) (header :
      BcBlockHeader) (ids hashes : List BcHash32),
      Carries listing .txid ids → Carries listing .hash hashes → Scanned listing →
        main 2 (some listing.text) mem = some (0, some header) → HasRoot ids header := by
  intro always
  obtain ⟨spelled, -, secondHash⟩ := twoText_spelled
  obtain ⟨firstTxid, firstHash, secondTxid⟩ := spelled 52 (by decide)
  have txids := @twoObjects_carries 52 (by decide) .txid _ _ firstTxid secondTxid
  have hashes := @twoObjects_carries 52 (by decide) .hash _ _ firstHash secondHash
  have scanned := twoObjects_scanned 52 (by decide)
  obtain ⟨header, ran⟩ := twoObjects_ends _ hashes (List.cons_ne_nil _ _)
  have claimed : HasRoot _ header := always _ _ header _ _ txids hashes scanned ran
  obtain ⟨decoded, carries, root⟩ := main_root scanned ran
  obtain rfl := hashes.unique carries
  have two : ∀ left right, reduce hashPair [left, right] = some (hashPair left right) := by
    intro left right
    simp [reduce, halve]
  rw [HasRoot, two] at claimed root
  exact pairs_differ (Option.some.inj (claimed.trans root.symm))

end NuLab.Template

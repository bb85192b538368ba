import Mathlib.Data.List.Perm.Basic
import NuLab.Json.Code

/-! # What the scanner delivers

A template is taken apart at the members the scanner is after; what stands between
them (brackets, commas, other members) does not matter as long as no tag occurs in
it.  The scanner then delivers the values of every object of the array, in order.
-/

namespace NuLab.Json

open NuLab.CString

/-! ## Templates -/

/-- The members of a transaction object that are delivered. -/
inductive Tag where
  | data
  | txid
  | hash
deriving DecidableEq

def Tag.key : Tag → List UInt8
  | data => tagData
  | txid => tagTxid
  | hash => tagHash

theorem key_ne_nil (tag : Tag) : tag.key ≠ [] := by
  cases tag <;> decide

def blanks : List UInt8 := text " \t\n"

def hexDigits : List UInt8 := text "0123456789abcdefABCDEF"

/-- A member with a hex string as its value, and what stands in front of it. -/
structure Member where
  front : List UInt8
  beforeColon : List UInt8
  behindColon : List UInt8
  value : List UInt8
  blank : ∀ char ∈ beforeColon ++ behindColon, char ∈ blanks
  hex : ∀ char ∈ value, char ∈ hexDigits
  nonempty : value ≠ []

/-- What stands between the key and the value. -/
def Member.between (member : Member) : List UInt8 :=
  member.beforeColon ++ (text ":" ++ (member.behindColon ++ text "\""))

def Member.bytes (member : Member) (tag : Tag) : List UInt8 :=
  member.front ++ (tag.key ++ (member.between ++ (member.value ++ text "\"")))

/-- An object with one member of each kind, in any order. -/
structure TxObject where
  member : Tag → Member
  order : List Tag
  each : order.Perm [.data, .txid, .hash]

namespace TxObject

variable (object : TxObject) (start : Nat) (tag : Tag)

def bytesOf (tags : List Tag) : List UInt8 := tags.flatMap fun tag => (object.member tag).bytes tag

/-- The object from the end of the one before it up to the end of its last member. -/
def bytes : List UInt8 := object.bytesOf object.order

/-- Where the member's key is in a text in which the object begins at `start`. -/
def keyAt : Nat :=
  start + (object.bytesOf (object.order.takeWhile (· ≠ tag))).length +
    (object.member tag).front.length

/-- Where the member's value is. -/
def spanAt : NuCspan :=
  let beg := object.keyAt start tag + tag.key.length + (object.member tag).between.length
  ⟨beg, beg + (object.member tag).value.length⟩

def viewAt : BcTxView :=
  ⟨object.spanAt start .txid, object.spanAt start .hash, object.spanAt start .data⟩

end TxObject

/-- The values of objects that begin at `start`. -/
def viewsFrom (start : Nat) : List TxObject → List BcTxView
  | [] => []
  | object :: objects => object.viewAt start :: viewsFrom (start + object.bytes.length) objects

/-- The keys of one kind of objects that begin at `start`. -/
def keysFrom (tag : Tag) (start : Nat) : List TxObject → List Nat
  | [] => []
  | object :: objects =>
    object.keyAt start tag :: keysFrom tag (start + object.bytes.length) objects

structure Parts where
  front : List UInt8
  /-- The character behind the key of the array. -/
  next : UInt8
  objects : List TxObject
  back : List UInt8

def Parts.text (parts : Parts) : List UInt8 :=
  parts.front ++ (tagTxns ++ (parts.next :: (parts.objects.flatMap TxObject.bytes ++ parts.back)))

/-- Where the scanner begins with the objects. -/
def Parts.start (parts : Parts) : Nat := parts.front.length + (tagTxns.length + 1)

/-- A block template text. -/
structure Template extends Parts where
  noNul : ∀ char ∈ toParts.text, char ≠ 0
  /-- The key of the array is where the quoted word occurs first. -/
  first : ∀ i < front.length, ¬ tagTxns <+: toParts.text.drop i
  /-- Behind it, the tags occur as the keys of the objects' members only. -/
  nowhereElse : ∀ tag i, toParts.start ≤ i → i ≤ toParts.text.length →
    Tag.key tag <+: toParts.text.drop i →
    i ∈ keysFrom tag toParts.start objects

/-- The values of the objects, in the order of the array. -/
def Template.views (template : Template) : List BcTxView :=
  viewsFrom template.start template.objects

/-- The characters of a span. -/
def slice (memory : List UInt8) (span : NuCspan) : List UInt8 :=
  (memory.drop span.beg).take (span.fin - span.beg)

/-! ## One member -/

section

variable {memory : List UInt8} {member : Member} {tag : Tag} {rest : List UInt8}

theorem between_skipped (member : Member) : ∀ char ∈ member.between, char ∈ text "\": \n\t" := by
  have inBlanks : ∀ char ∈ blanks, char ∈ text "\": \n\t" := all_chars (by decide)
  intro char inside
  simp only [Member.between, List.mem_append] at inside
  rcases inside with before | colon | behind | quote
  · exact inBlanks char (member.blank char (List.mem_append_left _ before))
  · rw [List.mem_singleton.mp colon]
    decide
  · exact inBlanks char (member.blank char (List.mem_append_right _ behind))
  · rw [List.mem_singleton.mp quote]
    decide

/-- The value of a key that is found, if only what is skipped stands between them. -/
theorem find_value (noNul : ∀ char ∈ memory, char ≠ 0) {key between value : List UInt8}
    {tmp keyAt fin : Nat} (found : strstr memory tmp key = some keyAt)
    (here : memory.drop keyAt = key ++ (between ++ (value ++ (text "\"" ++ rest))))
    (skipped : ∀ char ∈ between, char ∈ text "\": \n\t") (hex : ∀ char ∈ value, char ∈ hexDigits)
    (nonempty : value ≠ []) (inside : keyAt + key.length + between.length + value.length ≤ fin) :
    jsonFindTagValue memory ⟨tmp, fin⟩ key =
      some ⟨keyAt + key.length + between.length, keyAt + key.length + between.length +
        value.length⟩ := by
  have notSkipped : ∀ char ∈ hexDigits, char ∉ text "\": \n\t" := all_chars (by decide)
  have notStop : ∀ char ∈ hexDigits, char ∉ text "\"," := all_chars (by decide)
  have behindKey : memory.drop (keyAt + key.length) = between ++ (value ++ (text "\"" ++ rest)) :=
    drop_behind here
  have atValue : memory.drop (keyAt + key.length + between.length) = value ++ (text "\"" ++ rest) :=
    drop_behind behindKey
  have valEnd : strcspn memory (keyAt + key.length + between.length) (text "\",") = value.length :=
    strcspn_eq noNul atValue (fun char inner => notStop char (hex char inner)) (by decide)
  have valBeg : strspn memory (keyAt + key.length) (text "\": \n\t") = between.length := by
    cases value with
    | nil => exact absurd rfl nonempty
    | cons digit digits =>
      rw [List.cons_append] at behindKey
      exact strspn_eq noNul behindKey skipped (notSkipped digit (hex digit List.mem_cons_self))
  simp only [jsonFindTagValue, found, valBeg, valEnd]
  rw [if_neg (Nat.not_lt.mpr inside)]

theorem find_member (noNul : ∀ char ∈ memory, char ≠ 0) {tmp key fin : Nat}
    (found : strstr memory tmp tag.key = some key)
    (here : memory.drop key = tag.key ++ (member.between ++ (member.value ++ (text "\"" ++ rest))))
    (inside : key + tag.key.length + member.between.length + member.value.length ≤ fin) :
    jsonFindTagValue memory ⟨tmp, fin⟩ tag.key =
      some ⟨key + tag.key.length + member.between.length,
        key + tag.key.length + member.between.length + member.value.length⟩ :=
  find_value noNul found here (between_skipped member) member.hex member.nonempty inside

end

/-! ## One object -/

theorem scanRound_found {memory : List UInt8} {tmp fin : Nat} {data txid hash : NuCspan}
    (dataFound : jsonFindTagValue memory ⟨tmp, fin⟩ tagData = some data)
    (txidFound : jsonFindTagValue memory ⟨tmp, fin⟩ tagTxid = some txid)
    (hashFound : jsonFindTagValue memory ⟨tmp, fin⟩ tagHash = some hash) :
    scanRound memory tmp fin =
      some (⟨txid, hash, data⟩, max (max (max tmp data.fin) txid.fin) hash.fin) := by
  have larger : ∀ a b : Nat, (if a < b then b else a) = max a b := by
    intro a b
    split_ifs <;> omega
  simp only [scanRound, dataFound, txidFound, hashFound, Option.bind_eq_bind,
    Option.bind_some, larger]

namespace TxObject

variable {object : TxObject} {memory rest : List UInt8} {start : Nat}

theorem keyAt_ge (object : TxObject) (start : Nat) (tag : Tag) :
    start ≤ object.keyAt start tag := by
  rw [keyAt]
  omega

theorem mem_order (object : TxObject) (tag : Tag) : tag ∈ object.order := by
  rw [object.each.mem_iff]
  cases tag <;> decide

/-- The members in front of one, the member and the members behind it. -/
theorem bytes_split (object : TxObject) (tag : Tag) :
    ∃ behind, object.bytes = object.bytesOf (object.order.takeWhile (· ≠ tag)) ++
      ((object.member tag).bytes tag ++ object.bytesOf behind) := by
  obtain ⟨behind, split⟩ := takeWhile_ne (object.mem_order tag)
  refine ⟨behind, ?_⟩
  conv_lhs => rw [bytes, split]
  simp only [bytesOf, List.flatMap_append, List.flatMap_cons]

theorem span_inside (object : TxObject) (start : Nat) (tag : Tag) :
    object.keyAt start tag < (object.spanAt start tag).fin ∧
      (object.spanAt start tag).fin < start + object.bytes.length := by
  obtain ⟨behind, split⟩ := object.bytes_split tag
  have length := congrArg List.length split
  have long : 0 < tag.key.length := by cases tag <;> decide
  simp only [List.length_append, Member.bytes] at length
  have quote : (text "\"").length = 1 := by decide
  simp only [spanAt, keyAt]
  omega

/-- What is at the key of a member. -/
theorem drop_key (here : memory.drop start = object.bytes ++ rest) (tag : Tag) :
    ∃ behind, memory.drop (object.keyAt start tag) = tag.key ++
      ((object.member tag).between ++ ((object.member tag).value ++ (text "\"" ++ behind))) := by
  obtain ⟨behind, split⟩ := object.bytes_split tag
  refine ⟨object.bytesOf behind ++ rest, ?_⟩
  rw [split, List.append_assoc] at here
  have front := drop_behind here
  rw [Member.bytes, List.append_assoc, List.append_assoc] at front
  have key := drop_behind front
  simpa only [keyAt, List.append_assoc] using key

/-- The tag of a member is found if it does not occur between `tmp` and the member. -/
theorem find_tag (noNul : ∀ char ∈ memory, char ≠ 0)
    (here : memory.drop start = object.bytes ++ rest) {tmp : Nat} {tag : Tag}
    (behind : tmp ≤ object.keyAt start tag)
    (first : ∀ j, tmp ≤ j → j < object.keyAt start tag → ¬ tag.key <+: memory.drop j) :
    jsonFindTagValue memory ⟨tmp, memory.length⟩ tag.key = some (object.spanAt start tag) := by
  obtain ⟨after, key⟩ := object.drop_key here tag
  have length := congrArg List.length key
  have wordLength : 0 < tag.key.length := by cases tag <;> decide
  simp only [List.length_append, List.length_drop] at length
  have found :=
    strstr_first noNul behind (by omega) (by rw [key]; exact List.prefix_append _ _) first
  exact find_member noNul found key (by omega)

/-- One round delivers the object's values and goes on behind the last of its keys. -/
theorem scanRound_object (noNul : ∀ char ∈ memory, char ≠ 0)
    (here : memory.drop start = object.bytes ++ rest) {tmp : Nat}
    (behind : ∀ tag, tmp ≤ object.keyAt start tag)
    (first : ∀ tag j, tmp ≤ j → j < object.keyAt start tag → ¬ Tag.key tag <+: memory.drop j) :
    ∃ next, scanRound memory tmp memory.length = some (object.viewAt start, next) ∧
      next ≤ start + object.bytes.length ∧ ∀ tag, object.keyAt start tag < next := by
  have data := find_tag noNul here (behind .data) (first .data)
  have txid := find_tag noNul here (behind .txid) (first .txid)
  have hash := find_tag noNul here (behind .hash) (first .hash)
  have dataInside := object.span_inside start .data
  have txidInside := object.span_inside start .txid
  have hashInside := object.span_inside start .hash
  have dataBehind := behind .data
  refine ⟨_, scanRound_found data txid hash, ?_, ?_⟩
  · omega
  · intro tag
    cases tag <;> omega

end TxObject

/-! ## All objects -/

theorem keysFrom_ge {tag : Tag} {start i : Nat} {objects : List TxObject}
    (member : i ∈ keysFrom tag start objects) :
    start ≤ i := by
  induction objects generalizing start with
  | nil => simp [keysFrom] at member
  | cons object objects inductionHypothesis =>
    cases List.mem_cons.mp member with
    | inl key =>
      rw [key]
      exact object.keyAt_ge start tag
    | inr later =>
      have := inductionHypothesis later
      omega

section

variable {σ : Type} {cb : σ → BcTxView → Int × σ} {memory : List UInt8}
  {tmp fin next : Nat} {tx : BcTxView}

theorem scanLoop_stops (userPtr : σ) (stops : tmp < fin → scanRound memory tmp fin = none) :
    scanLoop memory fin cb tmp userPtr = ([], userPtr) := by
  rw [scanLoop]
  by_cases inside : tmp < fin
  · rw [if_pos inside]
    split
    · rfl
    · simp_all
  · rw [if_neg inside]

theorem scanLoop_accepted {userPtr : σ} (inside : tmp < fin)
    (round : scanRound memory tmp fin = some (tx, next)) (accepted : (cb userPtr tx).1 = 0) :
    scanLoop memory fin cb tmp userPtr =
      let (calls, userPtr) := scanLoop memory fin cb next (cb userPtr tx).2
      (tx :: calls, userPtr) := by
  rw [scanLoop, if_pos inside]
  split
  · simp_all
  · rename_i tx' next' round'
    obtain ⟨rfl, rfl⟩ : tx = tx' ∧ next = next' := by simpa [round] using round'
    simp only [accepted, ne_eq, not_true_eq_false, if_false]

/-- From the cursor on, the tags occur as keys of the objects and nowhere else. -/
def KeysOnly (memory : List UInt8) (tmp start : Nat) (objects : List TxObject) : Prop :=
  ∀ tag i, tmp ≤ i → i ≤ memory.length → Tag.key tag <+: memory.drop i →
    i ∈ keysFrom tag start objects

/-- Of each kind, the key of the first object is the first one that is left. -/
theorem KeysOnly.first {start : Nat} {object : TxObject} {objects : List TxObject}
    (only : KeysOnly memory tmp start (object :: objects))
    (inside : start + object.bytes.length ≤ memory.length) (tag : Tag) (j : Nat) (behind : tmp ≤ j)
    (before : j < object.keyAt start tag) : ¬ Tag.key tag <+: memory.drop j := by
  intro occurs
  have bound := object.span_inside start tag
  cases List.mem_cons.mp (only tag j behind (by omega) occurs) with
  | inl same => omega
  | inr later =>
    have := keysFrom_ge later
    omega

/-- Behind the keys of the first object, only those of the others are left. -/
theorem KeysOnly.later {start : Nat} {object : TxObject} {objects : List TxObject}
    (only : KeysOnly memory tmp start (object :: objects)) (further : tmp ≤ next)
    (past : ∀ tag, object.keyAt start tag < next) :
    KeysOnly memory next (start + object.bytes.length) objects := by
  intro tag i behind inside occurs
  cases List.mem_cons.mp (only tag i (Nat.le_trans further behind) inside occurs) with
  | inl same =>
    have := past tag
    omega
  | inr later => exact later

/-- From a cursor that is not behind the first of the objects, all of them are delivered. -/
theorem scanLoop_objects (noNul : ∀ char ∈ memory, char ≠ 0)
    (accepts : ∀ userPtr tx, (cb userPtr tx).1 = 0) {objects : List TxObject} {start : Nat}
    {back : List UInt8} (userPtr : σ)
    (here : memory.drop start = objects.flatMap TxObject.bytes ++ back) (cursor : tmp ≤ start)
    (only : KeysOnly memory tmp start objects) :
    scanLoop memory memory.length cb tmp userPtr =
      (viewsFrom start objects, (viewsFrom start objects).foldl
        (fun userPtr tx => (cb userPtr tx).2) userPtr) := by
  induction objects generalizing start tmp userPtr with
  | nil =>
    apply scanLoop_stops
    intro inside
    have absent : strstr memory tmp tagData = none := by
      apply strstr_none noNul (Nat.le_of_lt inside)
      intro j behind bound occurs
      have := only .data j behind bound occurs
      simp [keysFrom] at this
    simp [scanRound, jsonFindTagValue, absent]
  | cons object objects inductionHypothesis =>
    rw [List.flatMap_cons, List.append_assoc] at here
    have length := congrArg List.length here
    rw [List.length_drop, List.length_append] at length
    have ahead := object.keyAt_ge start .data
    have inside := object.span_inside start .data
    have behind : ∀ tag, tmp ≤ object.keyAt start tag := fun tag =>
      Nat.le_trans cursor (object.keyAt_ge start tag)
    have dataBehind := behind .data
    obtain ⟨next, round, before, past⟩ :=
      TxObject.scanRound_object noNul here behind (only.first (by omega))
    have dataPast := past .data
    rw [scanLoop_accepted (by omega) round (accepts userPtr _),
      inductionHypothesis (cb userPtr (object.viewAt start)).2 (drop_behind here) before
        (only.later (by omega) past)]
    rfl

end

/-! ## The values -/

/-- What the three spans of a delivery hold. -/
def values (memory : List UInt8) (tx : BcTxView) : List UInt8 × List UInt8 × List UInt8 :=
  (slice memory tx.txid, slice memory tx.hash, slice memory tx.data)

def TxObject.values (object : TxObject) : List UInt8 × List UInt8 × List UInt8 :=
  ((object.member .txid).value, (object.member .hash).value, (object.member .data).value)

theorem TxObject.slice_spanAt {object : TxObject} {memory rest : List UInt8} {start : Nat}
    (here : memory.drop start = object.bytes ++ rest) (tag : Tag) :
    slice memory (object.spanAt start tag) = (object.member tag).value := by
  obtain ⟨behind, key⟩ := object.drop_key here tag
  have value := drop_behind (drop_behind key)
  rw [slice, spanAt, value, Nat.add_sub_cancel_left, List.take_left]

theorem viewsFrom_values {memory back : List UInt8} {start : Nat} {objects : List TxObject}
    (here : memory.drop start = objects.flatMap TxObject.bytes ++ back) :
    (viewsFrom start objects).map (values memory) = objects.map TxObject.values := by
  induction objects generalizing start with
  | nil => rfl
  | cons object objects inductionHypothesis =>
    rw [List.flatMap_cons, List.append_assoc] at here
    have rest := inductionHypothesis (drop_behind here)
    have slices := TxObject.slice_spanAt here
    rw [viewsFrom, List.map_cons, List.map_cons, rest, values, TxObject.viewAt,
      slices, slices, slices]
    rfl

theorem Template.drop_start (template : Template) :
    template.text.drop template.start = template.objects.flatMap TxObject.bytes ++
      template.back := by
  have front : template.text.drop (0 + template.front.length) = _ := drop_behind (List.drop_zero)
  rw [Nat.zero_add] at front
  have key := drop_behind front
  rw [Parts.start, ← Nat.add_assoc, ← List.drop_drop, key]
  rfl

theorem Template.find_txns (template : Template) :
    strstr template.text 0 tagTxns = some template.front.length := by
  apply strstr_first template.noNul (Nat.zero_le _)
  · rw [Parts.text, List.length_append]
    omega
  · rw [Parts.text, List.drop_left]
    exact List.prefix_append _ _
  · intro j _ before
    exact template.first j before

theorem scan_template {σ : Type} (template : Template) (cb : σ → BcTxView → Int × σ)
    (accepts : ∀ userPtr tx, (cb userPtr tx).1 = 0) (userPtr : σ) :
    jsonBlocktemplateTxScan template.text ⟨0, template.text.length⟩ cb userPtr =
      (0, template.views, template.views.foldl (fun userPtr tx => (cb userPtr tx).2) userPtr) := by
  have delivered := scanLoop_objects template.noNul accepts userPtr
    template.drop_start (Nat.le_refl _)
    template.nowhereElse
  rw [jsonBlocktemplateTxScan, template.find_txns]
  exact congrArg (Prod.mk 0) delivered

/-- A callback that returns 0 is called once per object, in the order of the array, with
that object's values. -/
theorem scan_delivers {σ : Type} (template : Template) (cb : σ → BcTxView → Int × σ)
    (accepts : ∀ userPtr tx, (cb userPtr tx).1 = 0) (userPtr : σ) :
    jsonBlocktemplateTxScan template.text ⟨0, template.text.length⟩ cb userPtr =
        (0, template.views, template.views.foldl (fun userPtr tx => (cb userPtr tx).2) userPtr) ∧
      template.views.map (values template.text) = template.objects.map TxObject.values :=
  ⟨scan_template template cb accepts userPtr, viewsFrom_values template.drop_start⟩

theorem no_blanks : ∀ char ∈ ([] ++ [] : List UInt8), char ∈ blanks := by simp

/-- `\x7b"transactions":[\x7b"txid":"1a", "data" :
"00","hash":"2b"\x7d,\x7b"hash":"3c","txid":"4d","data":"01"\x7d]\x7d` in parts -/
def twoTransactions : Parts where
  front := text "\x7b"
  next := 58
  objects :=
    [{ member := fun
        | .txid => ⟨text "[\x7b", [], [], text "1a", no_blanks, all_chars (by decide), by decide⟩
        | .data => ⟨text ", ", text " ", text " ", text "00", all_chars (by decide),
            all_chars (by decide), by decide⟩
        | .hash => ⟨text ",", [], [], text "2b", no_blanks, all_chars (by decide), by decide⟩
       order := [.txid, .data, .hash]
       each := by decide },
     { member := fun
        | .hash =>
          ⟨text "\x7d,\x7b", [], [], text "3c", no_blanks, all_chars (by decide), by decide⟩
        | .txid => ⟨text ",", [], [], text "4d", no_blanks, all_chars (by decide), by decide⟩
        | .data => ⟨text ",", [], [], text "01", no_blanks, all_chars (by decide), by decide⟩
       order := [.hash, .txid, .data]
       each := by decide }]
  back := text "\x7d]\x7d"

theorem twoTransactions_tags : ∀ tag ∈ [Tag.data, Tag.txid, Tag.hash],
    ∀ i ∈ occurrences tag.key twoTransactions.text, twoTransactions.start ≤ i →
      i ∈ keysFrom tag twoTransactions.start twoTransactions.objects := by decide

def twoTemplate : Template where
  toParts := twoTransactions
  noNul := all_chars (by decide)
  first := by decide
  nowhereElse tag i behind _ occurs :=
    twoTransactions_tags tag (by cases tag <;> decide) i
      (mem_occurrences (key_ne_nil tag) occurs) behind

theorem scan_delivers_two :
    (jsonBlocktemplateTxScan twoTemplate.text ⟨0, twoTemplate.text.length⟩
        (fun count _ => (0, count + 1)) 0).2.2 = 2 ∧
      twoTemplate.views.map (values twoTemplate.text) =
        [(text "1a", text "2b", text "00"), (text "4d", text "3c", text "01")] := by
  obtain ⟨scanned, delivered⟩ :=
    scan_delivers twoTemplate (fun count _ => (0, count + 1)) (fun _ _ => rfl) 0
  exact ⟨by rw [scanned]; rfl, delivered⟩

end NuLab.Json

-- SUMMARY: JSON text is read back to the tree that was printed, and so to the value.
import Ssz.Proofs.Text.Reads
import Ssz.Text.Codec

/-!
# The JSON round trip

The printer writes no blanks, so at each place the parser meets exactly the text
of what it looks for. The laws are stated over the text that follows, which is
arbitrary, and each asks for as many steps as the printed text is long, twice
over: a step is spent on an item or entry, and one on its value.
-/

namespace Ssz

namespace Text.Json

/-! ## Strings -/

theorem hexDigit?_digitChar : ∀ d < 16, hexDigit? (Nat.digitChar d) = some d := by decide

theorem length_utf8_code : ∀ n < 32,
    (Hex.utf8 ['0', '0', Nat.digitChar (n / 16), Nat.digitChar (n % 16)]).length = 4 := by
  decide

/-- The code of a control character is read back. -/
theorem readCode_control {n : Nat} (h : n < 32) (rest : List Char) :
    readCode ('0' :: '0' :: Nat.digitChar (n / 16) :: Nat.digitChar (n % 16) :: rest)
      = .ok (n, rest) := by
  have hhigh := hexDigit?_digitChar (n / 16) (by omega)
  have hlow := hexDigit?_digitChar (n % 16) (Nat.mod_lt _ (by decide))
  have hzero := hexDigit?_digitChar 0 (by decide)
  have hcode : n / 16 * 16 + n % 16 = n := Nat.div_add_mod' n 16
  have hlong : ¬ (Hex.utf8 (('0' :: '0' :: Nat.digitChar (n / 16) :: Nat.digitChar (n % 16)
      :: rest).take 4)).length < 4 := by
    simp only [List.take_succ_cons, List.take_zero, length_utf8_code n h, Nat.lt_irrefl,
      not_false_eq_true]
  rw [readCode, if_neg hlong]
  simp only [show hexDigit? '0' = some 0 from hzero, hhigh, hlow, Nat.zero_mul, Nat.zero_add, hcode]

theorem readEscape_control {c : Char} (h : c.toNat < 32) (rest : List Char) :
    readEscape ('u' :: '0' :: '0' :: Nat.digitChar (c.toNat / 16)
      :: Nat.digitChar (c.toNat % 16) :: rest) = .ok (c, rest) := by
  have hlow : ¬ (0xDC00 ≤ c.toNat ∧ c.toNat ≤ 0xDFFF) := by omega
  have hhigh : ¬ (0xD800 ≤ c.toNat ∧ c.toNat ≤ 0xDBFF) := by omega
  simp only [readEscape, readCode_control h, bind_eq_ok, Except.ok.injEq, exists_eq_left',
    if_neg hlow, if_neg hhigh, Char.ofNat_toNat, pure_eq_ok]

theorem readString_backslash {fuel : Nat} {c : Char} {text rest : List Char}
    (h : readEscape text = .ok (c, rest)) :
    readString (fuel + 1) ('\\' :: text) = (do
      let (s, rest) ← readString fuel rest
      return (c :: s, rest)) := by
  have hquote : ¬ '\\' = '"' := by decide
  rw [readString, if_neg hquote, if_pos rfl, h]
  rfl

/-- A printed character is read in one step. -/
theorem readString_escape (fuel : Nat) (c : Char) (rest : List Char) :
    readString (fuel + 1) (escape c ++ rest) = (do
      let (s, rest) ← readString fuel rest
      return (c :: s, rest)) := by
  unfold escape
  split
  case h_8 hquote hbackslash _ _ _ _ _ =>
    split
    · rename_i hcontrol
      exact readString_backslash (readEscape_control hcontrol rest)
    · rename_i hprintable
      rw [List.singleton_append, readString, if_neg hquote, if_neg hbackslash, if_neg hprintable]
  all_goals exact readString_backslash rfl

theorem readString_flatMap_escape {fuel : Nat} {s : List Char} (h : s.length < fuel)
    (rest : List Char) : readString fuel (s.flatMap escape ++ '"' :: rest) = .ok (s, rest) := by
  induction s generalizing fuel with
  | nil =>
    obtain ⟨fuel, rfl⟩ := Nat.exists_eq_succ_of_ne_zero (Nat.ne_of_gt h)
    rfl
  | cons c s ih =>
    obtain ⟨fuel, rfl⟩ := Nat.exists_eq_succ_of_ne_zero (Nat.ne_of_gt (Nat.zero_lt_of_lt h))
    have hrest := ih (Nat.lt_of_succ_lt_succ h)
    rw [List.flatMap_cons, List.append_assoc, readString_escape, hrest]
    rfl

/-- A string is read up to the quote that closes it. -/
theorem readQuoted_quote {fuel : Nat} {s : String} (h : s.toList.length < fuel)
    (rest : List Char) :
    readQuoted fuel (s.toList.flatMap escape ++ '"' :: rest) = .ok (s, rest) := by
  rw [readQuoted, readString_flatMap_escape h]
  exact congrArg (fun t => Except.ok (t, rest)) String.ofList_toList

/-! ## Values -/

variable {text key : String → Prop}

/-- The text starts as the text of a tree without numbers does. -/
def StartsTree (cs : List Char) : Prop :=
  ∃ c rest, cs = c :: rest ∧ c ∈ ['n', 't', 'f', '"', '[', '\x7b']

theorem startsTree_printTree {t : Tree} (h : t.Regular text key) (rest : List Char) :
    StartsTree (printTree t ++ rest) := by
  cases h with
  | null => exact ⟨_, _, rfl, by decide⟩
  | bool b => cases b <;> exact ⟨_, _, rfl, by decide⟩
  | string => exact ⟨_, _, rfl, by decide⟩
  | @array items => cases items <;> exact ⟨_, _, rfl, by decide⟩
  | @object entries => cases entries <;> exact ⟨_, _, rfl, by decide⟩

theorem readValue_array {fuel depth : Nat} {cs rest : List Char} {items : List Tree}
    (hstart : StartsTree cs) (h : readItems fuel depth cs = .ok (items, rest)) :
    readValue (fuel + 1) (depth + 1) ('[' :: cs) = .ok (.array items, rest) := by
  have hopen : readValue (fuel + 1) (depth + 1) ('[' :: cs)
      = (readItems fuel depth cs).map fun r => (.array r.1, r.2) := by
    obtain ⟨c, tail, rfl, hc⟩ := hstart
    simp only [List.mem_cons, List.not_mem_nil, or_false] at hc
    rcases hc with rfl | rfl | rfl | rfl | rfl | rfl <;> rfl
  rw [hopen, h]
  rfl

theorem readValue_object {fuel depth : Nat} {cs rest : List Char} {entries : List (String × Tree)}
    (h : readEntries fuel depth ('"' :: cs) = .ok (entries, rest)) :
    readValue (fuel + 1) (depth + 1) ('\x7b' :: '"' :: cs)
      = .ok (.object (Tree.ofEntries entries), rest) := by
  have hopen : readValue (fuel + 1) (depth + 1) ('\x7b' :: '"' :: cs)
      = (readEntries fuel depth ('"' :: cs)).map fun r => (.object (Tree.ofEntries r.1), r.2) := rfl
  rw [hopen, h]
  rfl

/-- The text of a string goes on behind its closing quote. -/
theorem quote_append (s rest : List Char) :
    quote s ++ rest = '"' :: (s.flatMap escape ++ '"' :: rest) := by
  rw [quote, List.append_assoc, List.cons_append, List.singleton_append]

theorem readValue_string {fuel depth : Nat} {s : String} (h : s.toList.length < fuel)
    (rest : List Char) :
    readValue (fuel + 1) depth (quote s.toList ++ rest) = .ok (.string s, rest) := by
  have hopen (cs : List Char) : readValue (fuel + 1) depth ('"' :: cs)
      = (readQuoted fuel cs).map fun r => (.string r.1, r.2) := rfl
  rw [quote_append, hopen, readQuoted_quote h]
  rfl

theorem readKey_quote {fuel : Nat} {name : String} (h : name.toList.length < fuel)
    (rest : List Char) : readKey fuel (quote name.toList ++ ':' :: rest) = .ok (name, rest) := by
  rw [quote_append, readKey, readQuoted_quote h]
  rfl

section Steps

variable {fuel depth : Nat} {cs cs' cs'' rest : List Char} {name : String} {t : Tree}

theorem readItems_last (ht : readValue fuel depth cs = .ok (t, ']' :: rest)) :
    readItems (fuel + 1) depth cs = .ok ([t], rest) := by
  rw [readItems, ht]
  rfl

theorem readItems_next {items : List Tree} (ht : readValue fuel depth cs = .ok (t, ',' :: cs'))
    (hitems : readItems fuel depth cs' = .ok (items, rest)) :
    readItems (fuel + 1) depth cs = .ok (t :: items, rest) := by
  rw [readItems, ht]
  change (readItems fuel depth cs' >>= _) = _
  rw [hitems]
  rfl

theorem readEntries_last (hkey : readKey fuel cs = .ok (name, cs'))
    (ht : readValue fuel depth cs' = .ok (t, '\x7d' :: rest)) :
    readEntries (fuel + 1) depth cs = .ok ([(name, t)], rest) := by
  rw [readEntries, hkey]
  change (readValue fuel depth cs' >>= _) = _
  rw [ht]
  rfl

theorem readEntries_next {entries : List (String × Tree)}
    (hkey : readKey fuel cs = .ok (name, cs'))
    (ht : readValue fuel depth cs' = .ok (t, ',' :: '"' :: cs''))
    (hentries : readEntries fuel depth ('"' :: cs'') = .ok (entries, rest)) :
    readEntries (fuel + 1) depth cs = .ok ((name, t) :: entries, rest) := by
  rw [readEntries, hkey]
  change (readValue fuel depth cs' >>= _) = _
  rw [ht]
  change (readEntries fuel depth ('"' :: cs'') >>= _) = _
  rw [hentries]
  rfl

end Steps

/-! ## Printed trees -/

theorem length_le_flatMap_escape (s : List Char) : s.length ≤ (s.flatMap escape).length := by
  have hescape (c : Char) : 0 < (escape c).length := by
    unfold escape
    split
    case h_8 => split <;> exact Nat.zero_lt_succ _
    all_goals exact Nat.zero_lt_succ _
  induction s with
  | nil => exact Nat.le_refl _
  | cons c s ih =>
    rw [List.flatMap_cons, List.length_append, List.length_cons, Nat.add_comm]
    exact Nat.add_le_add (hescape c) ih

/-- The two quotes are not part of the string. -/
theorem length_add_two_le_quote (s : List Char) : s.length + 2 ≤ (quote s).length := by
  have h := length_le_flatMap_escape s
  rw [quote, List.length_append, List.length_cons, List.length_singleton]
  omega

/-- The printed tree is read back, whatever follows it. -/
def ReadsBack (t : Tree) : Prop :=
  ∀ fuel depth rest, 2 * (printTree t).length ≤ fuel → t.depth ≤ depth →
    readValue fuel depth (printTree t ++ rest) = .ok (t, rest)

theorem readItems_printItems {t : Tree} {items : List Tree} {fuel depth : Nat}
    (hread : ∀ u ∈ t :: items, ReadsBack u) (hdepth : ∀ u ∈ t :: items, u.depth ≤ depth)
    (hfuel : 2 * ((printTree t).length + (printItems items).length) ≤ fuel) (rest : List Char) :
    readItems (fuel + 1) depth (printTree t ++ (printItems items ++ rest))
      = .ok (t :: items, rest) := by
  induction items generalizing t fuel with
  | nil =>
    refine readItems_last ?_
    exact hread t List.mem_cons_self fuel depth (']' :: rest) (by omega)
      (hdepth t List.mem_cons_self)
  | cons u items ih =>
    have hlength : (printItems (u :: items)).length
        = (printTree u).length + (printItems items).length + 1 := by
      rw [printItems, List.cons_append, List.length_cons, List.length_append]
    rw [hlength] at hfuel
    obtain ⟨fuel, rfl⟩ : ∃ n, fuel = n + 1 := Nat.exists_eq_succ_of_ne_zero (by omega)
    have ht := hread t List.mem_cons_self (fuel + 1) depth
      (',' :: (printTree u ++ (printItems items ++ rest))) (by omega) (hdepth t List.mem_cons_self)
    have hfuel' : 2 * ((printTree u).length + (printItems items).length) ≤ fuel := by omega
    have hitems := ih (List.forall_mem_cons.1 hread).2 (List.forall_mem_cons.1 hdepth).2 hfuel'
    rw [printItems, List.cons_append, List.cons_append, List.append_assoc]
    exact readItems_next ht hitems

theorem readEntries_printEntries {name : String} {t : Tree} {entries : List (String × Tree)}
    {fuel depth : Nat} (hread : ∀ entry ∈ (name, t) :: entries, ReadsBack entry.2)
    (hdepth : ∀ entry ∈ (name, t) :: entries, entry.2.depth ≤ depth)
    (hfuel : 2 * ((quote name.toList).length + (printTree t).length + (printEntries entries).length)
      ≤ fuel) (rest : List Char) :
    readEntries (fuel + 1) depth
        (quote name.toList ++ ':' :: (printTree t ++ (printEntries entries ++ rest)))
      = .ok ((name, t) :: entries, rest) := by
  induction entries generalizing name t fuel with
  | nil =>
    have hname := length_add_two_le_quote name.toList
    have hread' : ReadsBack t := hread _ List.mem_cons_self
    have ht := hread' fuel depth ('\x7d' :: rest) (by omega) (hdepth _ List.mem_cons_self)
    exact readEntries_last (readKey_quote (by omega) _) ht
  | cons entry entries ih =>
    obtain ⟨next, u⟩ := entry
    have hname := length_add_two_le_quote name.toList
    have hread' : ReadsBack t := hread _ List.mem_cons_self
    have hlength : (printEntries ((next, u) :: entries)).length
        = (quote next.toList).length + (printTree u).length + (printEntries entries).length
          + 2 := by
      simp only [printEntries, List.length_append, List.length_cons]
      omega
    rw [hlength] at hfuel
    obtain ⟨fuel, rfl⟩ : ∃ n, fuel = n + 1 := Nat.exists_eq_succ_of_ne_zero (by omega)
    have ht := hread' (fuel + 1) depth (',' :: (quote next.toList ++ ':' :: (printTree u ++
      (printEntries entries ++ rest)))) (by omega) (hdepth _ List.mem_cons_self)
    have hfuel' : 2 * ((quote next.toList).length + (printTree u).length
      + (printEntries entries).length) ≤ fuel := by omega
    have hentries := ih (List.forall_mem_cons.1 hread).2 (List.forall_mem_cons.1 hdepth).2 hfuel'
    rw [printEntries, List.cons_append, List.append_assoc, List.cons_append, List.append_assoc]
    rw [quote_append next.toList] at ht hentries ⊢
    exact readEntries_next (readKey_quote (by omega) _) ht hentries

/-- Every regular tree is read back. -/
theorem readsBack_of_regular {t : Tree} (h : t.Regular text key) : ReadsBack t := by
  induction h with
  | null =>
    intro fuel depth rest hfuel _
    obtain ⟨fuel, rfl⟩ : ∃ n, fuel = n + 1 := Nat.exists_eq_succ_of_ne_zero fun h => by
      subst h
      cases hfuel
    rfl
  | bool b =>
    intro fuel depth rest hfuel _
    obtain ⟨fuel, rfl⟩ : ∃ n, fuel = n + 1 := Nat.exists_eq_succ_of_ne_zero fun h => by
      subst h
      cases b <;> cases hfuel
    cases b <;> rfl
  | @string s =>
    intro fuel depth rest hfuel _
    have hquote := length_add_two_le_quote s.toList
    rw [printTree] at hfuel ⊢
    obtain ⟨fuel, rfl⟩ : ∃ n, fuel = n + 1 := Nat.exists_eq_succ_of_ne_zero (by omega)
    exact readValue_string (by omega) rest
  | @array items hitems ih =>
    intro fuel depth rest hfuel hdepth
    rw [Tree.depth] at hdepth
    obtain ⟨depth, rfl⟩ : ∃ n, depth = n + 1 := Nat.exists_eq_succ_of_ne_zero (by omega)
    have hdepths := Tree.depthItems_le.1 (Nat.le_of_succ_le_succ hdepth)
    cases items with
    | nil =>
      obtain ⟨fuel, rfl⟩ : ∃ n, fuel = n + 1 := Nat.exists_eq_succ_of_ne_zero fun h => by
        subst h
        cases hfuel
      rfl
    | cons t items =>
      rw [printTree, List.cons_append, List.length_cons, List.length_append] at hfuel
      obtain ⟨fuel, rfl⟩ : ∃ n, fuel = n + 2 := ⟨fuel - 2, by omega⟩
      have hfuel' : 2 * ((printTree t).length + (printItems items).length) ≤ fuel := by omega
      have hread := readItems_printItems ih hdepths hfuel' rest
      rw [printTree, List.cons_append, List.cons_append, List.append_assoc]
      exact readValue_array (startsTree_printTree (hitems t List.mem_cons_self) _) hread
  | @object entries hnodup _ hentries ih =>
    intro fuel depth rest hfuel hdepth
    rw [Tree.depth] at hdepth
    obtain ⟨depth, rfl⟩ : ∃ n, depth = n + 1 := Nat.exists_eq_succ_of_ne_zero (by omega)
    have hdepths := Tree.depthEntries_le.1 (Nat.le_of_succ_le_succ hdepth)
    cases entries with
    | nil =>
      obtain ⟨fuel, rfl⟩ : ∃ n, fuel = n + 1 := Nat.exists_eq_succ_of_ne_zero fun h => by
        subst h
        cases hfuel
      rfl
    | cons entry entries =>
      obtain ⟨name, t⟩ := entry
      simp only [printTree, List.length_append, List.length_cons] at hfuel
      obtain ⟨fuel, rfl⟩ : ∃ n, fuel = n + 2 := ⟨fuel - 2, by omega⟩
      have hfuel' : 2 * ((quote name.toList).length + (printTree t).length
        + (printEntries entries).length) ≤ fuel := by omega
      have hread := readEntries_printEntries ih hdepths hfuel' rest
      have htext : printTree (.object ((name, t) :: entries)) ++ rest = '\x7b' ::
          (quote name.toList ++ ':' :: (printTree t ++ (printEntries entries ++ rest))) := by
        simp only [printTree, List.cons_append, List.append_assoc]
      rw [quote_append] at hread
      rw [htext, quote_append, readValue_object hread, Tree.ofEntries_of_nodup hnodup]

/-! ## Whole texts -/

theorem parse_printTree {t : Tree} (h : t.Regular text key) (hdepth : t.depth ≤ maxDepth) :
    parse (printTree t) = .ok t := by
  have hread := readsBack_of_regular h (2 * (printTree t).length + 2) maxDepth []
    (Nat.le_add_right _ _) hdepth
  rw [List.append_nil] at hread
  rw [parse, hread]
  rfl

theorem isBlank_printTree {t : Tree} (h : t.Regular text key) : isBlank (printTree t) = false := by
  have hstart := startsTree_printTree h []
  rw [List.append_nil] at hstart
  obtain ⟨c, rest, hprint, hc⟩ := hstart
  have hspaces : ['n', 't', 'f', '"', '[', '\x7b'].any isWhiteSpace = false := by decide
  have hspace : isWhiteSpace c = false := Bool.eq_false_iff.2 (List.any_eq_false.1 hspaces c hc)
  rw [hprint, isBlank, List.all_cons, hspace, Bool.false_and]

theorem treeOfJson_print {t : Tree} (h : t.Regular text key) (hdepth : t.depth ≤ maxDepth) :
    treeOfJson (print t).toList = .ok t := by
  rw [print, String.toList_ofList, treeOfJson, isBlank_printTree h, parse_printTree h hdepth]
  rfl

end Text.Json

/-- Field names are distinct within each record. -/
def Shape.DistinctNames (shape : Shape) : Prop := shape.Names fun _ => True

namespace Shape.Renders

variable {shape : Shape} {v : Value} {t : Text.Tree}

/-- Any strings and any keys may be in the tree. -/
theorem anyRegular (h : shape.Renders v t) (hnames : shape.DistinctNames) :
    t.Regular (fun _ => True) (fun _ => True) :=
  h.regular (fun _ => trivial) (fun _ => trivial) trivial trivial hnames

/-- The tree of a value is read back in every dialect, without a text in between. -/
theorem ofTree (h : shape.Renders v t) (hnames : shape.DistinctNames) (d : Text.Dialect) :
    Ssz.ofTree d shape t = .ok v := by
  have hread := h.ofTree_respell (readable_string d) hnames shape.name
  rwa [Text.Tree.respell_string (h.anyRegular hnames)] at hread

/-- The text of a rendered value is read back to the value. -/
theorem fromJson_print (h : shape.Renders v t) (hnames : shape.DistinctNames)
    (hdepth : t.depth ≤ Text.Json.maxDepth) : fromJson shape (Text.Json.print t) = .ok v := by
  rw [fromJson, Text.Json.treeOfJson_print (h.anyRegular hnames) hdepth]
  exact h.ofTree hnames .json

end Shape.Renders

/-- A well-formed value is written as JSON, and the text is read back to it, unless its tree nests
    more deeply than JSON is read. -/
theorem fromJson_toJson {shape : Shape} {v : Value} (hnames : shape.DistinctNames)
    (hcheck : shape.check v = .ok ()) (hdepth : ∀ t, toTree shape v = .ok t → t.depth ≤ 127) :
    ∃ text, toJson shape v = .ok text ∧ fromJson shape text = .ok v ∧
      ∀ w, fromJson shape text = .ok w → toJson shape w = .ok text := by
  obtain ⟨t, ht⟩ := Shape.exists_renders hcheck
  have htree : toTree shape v = .ok t := toTree_eq_ok.2 ht
  have hwrite : toJson shape v = .ok (Text.Json.print t) := by
    rw [toJson, htree]
    rfl
  have hread : fromJson shape (Text.Json.print t) = .ok v :=
    ht.fromJson_print hnames (hdepth t htree)
  refine ⟨_, hwrite, hread, fun w hw => ?_⟩
  cases hread.symm.trans hw
  exact hwrite

theorem fromJson_toJson_record :
    let shape : Shape := .container "record" [⟨"slot", "slot", .uint .u256⟩,
      ⟨"notes", "notes", .list (.byteList 4) 3⟩, ⟨"flags", "flags", .bitList 10⟩,
      ⟨"choice", "choice", .union [none, some (.list (.vector .bool 0) 2)]⟩]
    let v : Value := .container
      [.uint .u256 (BitVec.allOnes 256), .list [.bytes [], .bytes [7, 9]],
        .bits (.ofList [true, false, true]), .union 1 (some (.list [.list [], .list []]))]
    ∃ text, toJson shape v = .ok text ∧ fromJson shape text = .ok v ∧
      ∀ w, fromJson shape text = .ok w → toJson shape w = .ok text := by
  intro shape v
  have hnames : shape.DistinctNames := by
    refine .container (by decide) (fun _ _ => trivial) fun field hfield => ?_
    simp only [List.mem_cons, List.not_mem_nil, or_false] at hfield
    rcases hfield with rfl | rfl | rfl | rfl
    · exact .uint
    · exact .list .byteList
    · exact .bitList
    · refine .union fun choice hchoice => ?_
      simp only [List.mem_cons, reduceCtorEq, Option.some.injEq, List.not_mem_nil, or_false,
        false_or] at hchoice
      exact hchoice ▸ .list (.vector .bool)
  refine fromJson_toJson hnames rfl fun t ht => ?_
  cases ht
  decide

end Ssz

import OperatingSystems.LookupStreams
import OperatingSystems.LibraryRecords

/-!
How a requester turns a file into names. The length of a line is taken from `strlen` and kept in an
`int`, and the last character is looked at without asking whether there is one: a line that begins
with a zero byte sends the test to the byte before the buffer.
-/

namespace OperatingSystems.Lookup

open Records

/-! ### The read loop -/

/-- `'\n'`. -/
def newline : UInt8 := 10

/-- The bytes of a literal. -/
def ascii (s : String) : List UInt8 := s.toList.map Char.toUInt8

/-- The string that a buffer holds. -/
def cstring (buffer : List UInt8) : List UInt8 := upTo 0 buffer

def strlen (buffer : List UInt8) : Nat := (cstring buffer).length

/-- The value that remains of a `size_t` in an `int`. -/
def toInt (x : Nat) : Int := (x : Int).bmod (2 ^ 32)

/-- The next line, or nothing (`-1`) at the end of the file, and what is left of the file. -/
def getline (content : List UInt8) : Option (List UInt8 × List UInt8) := cut newline content

/-- `input[index]`, or the index if it lies outside the buffer. -/
def byteAt (input : List UInt8) (index : Int) : Except Int UInt8 :=
  if index < 0 then .error index
  else
    match input[index.toNat]? with
    | some c => .ok c
    | none => .error index

/-- `input[index] = c`. -/
def setByte (input : List UInt8) (index : Int) (c : UInt8) : Except Int (List UInt8) :=
  if index < 0 ∨ input.length ≤ index then .error index else .ok (input.set index.toNat c)

/-- The test for a newline at the end of the line, and its removal. -/
def stripNewline (input : List UInt8) : Except Int (List UInt8) := do
  let length := toInt (strlen input)
  let last ← byteAt input (length - 1)
  if last = newline then setByte input (length - 1) 0 else return input

/-- What `getline` leaves in the buffer for a line. -/
def lineBuffer (line : List UInt8) : List UInt8 := line ++ [0]

/-- The `while (getline(...) != -1)` loop: the strings that it stores, or the first index outside
of a line's buffer that it reads or writes. -/
def readLoop (content : List UInt8) : Except Int (List (List UInt8)) :=
  match _hline : getline content with
  | none => return []
  | some (line, rest) => do
      let input ← stripNewline (lineBuffer line)
      let stored ← readLoop rest
      return cstring input :: stored
termination_by content.length
decreasing_by exact cut_length _hline

/-! ### What should be stored -/

/-- The lines that `getline` returns for a file. -/
def getlines (content : List UInt8) : List (List UInt8) := records newline content

/-- The lines make up the file; they are not empty, each has a newline at its end at most, and all
but the last do end with one. -/
theorem getlines_spec (content : List UInt8) :
    (getlines content).flatten = content ∧
      (∀ line ∈ getlines content, line ≠ [] ∧ newline ∉ line.dropLast) ∧
      ∀ line ∈ (getlines content).dropLast, line.getLast? = some newline :=
  ⟨records_flatten content, fun _ => of_mem_records, fun _ => ended_of_mem_dropLast⟩

/-- The line up to its first zero byte and without a newline at the end. -/
def nameOf (line : List UInt8) : List UInt8 :=
  if (cstring line).getLast? = some newline then (cstring line).dropLast else cstring line

/-- The length up to the first zero byte is positive as an `int`, and is kept by the conversion if
there is a newline to be removed. -/
def Fits (line : List UInt8) : Prop :=
  0 < strlen line % 2 ^ 32 ∧ strlen line % 2 ^ 32 < 2 ^ 31 ∧
    ((cstring line).getLast? = some newline → strlen line < 2 ^ 31)

/-! ### One line -/

theorem cstring_lineBuffer (line : List UInt8) : cstring (lineBuffer line) = cstring line :=
  upTo_concat line

theorem strlen_lineBuffer (line : List UInt8) : strlen (lineBuffer line) = strlen line :=
  congrArg List.length (cstring_lineBuffer line)

theorem toInt_pos_iff (n : Nat) : 0 < toInt n ↔ 0 < n % 2 ^ 32 ∧ n % 2 ^ 32 < 2 ^ 31 := by
  unfold toInt
  rw [Int.bmod_def]
  split
  · omega
  · omega

theorem toInt_of_pos {n : Nat} (h : 0 < toInt n) : toInt n = (n % 2 ^ 32 : Nat) := by
  have hsmall := ((toInt_pos_iff n).mp h).2
  unfold toInt
  rw [Int.bmod_def]
  split
  · omega
  · omega

theorem byteAt_of_lt {input : List UInt8} {k : Nat} (hk : k < input.length) :
    byteAt input k = .ok input[k] := by
  rw [byteAt, if_neg (by omega), Int.toNat_natCast, List.getElem?_eq_getElem hk]

theorem setByte_of_lt {input : List UInt8} {k : Nat} (hk : k < input.length) (c : UInt8) :
    setByte input k c = .ok (input.set k c) := by
  rw [setByte, if_neg (by omega), Int.toNat_natCast]

theorem stripNewline_eq {input : List UInt8} {c : UInt8}
    (htested : byteAt input (toInt (strlen input) - 1) = .ok c) :
    stripNewline input =
      if c = newline then setByte input (toInt (strlen input) - 1) 0 else .ok input := by
  rw [stripNewline, htested]
  rfl

/-- A length that is not positive leads to an access outside of the buffer. -/
theorem stripNewline_of_nonpos {line : List UInt8} (h : toInt (strlen line) ≤ 0) :
    stripNewline (lineBuffer line) = .error (toInt (strlen line) - 1) := by
  have hout : byteAt (lineBuffer line) (toInt (strlen line) - 1) =
      .error (toInt (strlen line) - 1) := if_pos (by omega)
  rw [stripNewline, strlen_lineBuffer, hout]
  rfl

section Positive

variable {line : List UInt8} {k : Nat} (hlength : toInt (strlen line) = k + 1)
  (hk : k < (cstring line).length)

include hlength hk

/-- The character that is tested. -/
theorem tested_eq : byteAt (lineBuffer line) (toInt (strlen (lineBuffer line)) - 1) =
    .ok (cstring line)[k] := by
  have hleads : cstring line <+: lineBuffer line :=
    (upTo_isPrefix line).trans (List.prefix_append line [0])
  rw [strlen_lineBuffer, hlength, Int.add_sub_cancel,
    byteAt_of_lt (hk.trans_le hleads.length_le), hleads.getElem hk]

theorem stripNewline_of_newline (htested : (cstring line)[k] = newline) :
    cstring <$> stripNewline (lineBuffer line) = .ok ((cstring line).take k) := by
  have hleads : cstring line <+: lineBuffer line :=
    (upTo_isPrefix line).trans (List.prefix_append line [0])
  have htext : (upTo 0 (lineBuffer line)).length = (cstring line).length :=
    strlen_lineBuffer line
  have hset : cstring ((lineBuffer line).set k 0) = (cstring line).take k := by
    rw [cstring, upTo_set (hk.trans_eq htext.symm)]
    exact congrArg (List.take k) (cstring_lineBuffer line)
  rw [stripNewline_eq (tested_eq hlength hk), if_pos htested, strlen_lineBuffer, hlength,
    Int.add_sub_cancel, setByte_of_lt (hk.trans_le hleads.length_le)]
  exact congrArg Except.ok hset

theorem stripNewline_of_ne (htested : (cstring line)[k] ≠ newline) :
    cstring <$> stripNewline (lineBuffer line) = .ok (cstring line) := by
  rw [stripNewline_eq (tested_eq hlength hk), if_neg htested]
  exact congrArg Except.ok (cstring_lineBuffer line)

end Positive

/-- A newline in the text of a line is the last character of the text. -/
theorem last_of_newline {bytes : List UInt8} (hline : newline ∉ bytes.dropLast) {k : Nat}
    (hk : k < (cstring bytes).length) (hnewline : (cstring bytes)[k] = newline) :
    k + 1 = strlen bytes := by
  have hleads : cstring bytes <+: bytes := upTo_isPrefix bytes
  have hle := hleads.length_le
  have hin : k < bytes.length := hk.trans_le hle
  have hat : bytes[k] = newline := by rw [← hnewline, hleads.getElem hk]
  by_contra hne
  have hlt : k + 1 < strlen bytes := Nat.lt_of_le_of_ne hk hne
  have hfront : k < bytes.dropLast.length := by
    rw [List.length_dropLast]
    exact Nat.lt_sub_of_add_lt (hlt.trans_le hle)
  apply hline
  rw [← hat, ← List.getElem_dropLast hfront]
  exact List.getElem_mem hfront

theorem getLast?_cstring {line : List UInt8} {k : Nat} (hk : k < (cstring line).length)
    (hlast : k + 1 = strlen line) : (cstring line).getLast? = some (cstring line)[k] := by
  rw [List.getLast?_eq_getElem?, ← List.getElem?_eq_getElem hk]
  congr
  exact (Nat.eq_sub_of_add_eq hlast).symm

theorem nameOf_of_newline {line : List UInt8} (h : (cstring line).getLast? = some newline) :
    nameOf line = (cstring line).dropLast := if_pos h

theorem nameOf_eq_cstring_iff (line : List UInt8) :
    nameOf line = cstring line ↔ (cstring line).getLast? ≠ some newline := by
  refine ⟨?_, fun hne => if_neg hne⟩
  intro hsame hlast
  have hlength := congrArg List.length (hsame.symm.trans (nameOf_of_newline hlast))
  rw [List.length_dropLast] at hlength
  have hne : cstring line ≠ [] := by
    intro hnil
    rw [hnil] at hlast
    cases hlast
  have hpos := List.length_pos_of_ne_nil hne
  omega

/-- A line is stored as its name if and only if its length fits. -/
theorem stored_iff {line : List UInt8} (hline : newline ∉ line.dropLast) :
    cstring <$> stripNewline (lineBuffer line) = .ok (nameOf line) ↔ Fits line := by
  by_cases hpos : 0 < toInt (strlen line)
  · have hfits := (toInt_pos_iff _).mp hpos
    obtain ⟨k, hkmod⟩ : ∃ k, strlen line % 2 ^ 32 = k + 1 :=
      ⟨_, (Nat.succ_pred_eq_of_pos hfits.1).symm⟩
    have hlength : toInt (strlen line) = k + 1 := by
      rw [toInt_of_pos hpos, hkmod]
      rfl
    have hk : k < (cstring line).length := by
      have hle := Nat.mod_le (strlen line) (2 ^ 32)
      rw [hkmod] at hle
      exact hle
    by_cases htested : (cstring line)[k] = newline
    · have hlast := last_of_newline hline hk htested
      have hend := getLast?_cstring hk hlast
      rw [htested] at hend
      rw [stripNewline_of_newline hlength hk htested, nameOf_of_newline hend,
        List.dropLast_eq_take]
      refine ⟨fun _ => ⟨hfits.1, hfits.2, fun _ => by omega⟩, fun _ => ?_⟩
      exact congrArg (fun n => Except.ok ((cstring line).take n)) (Nat.eq_sub_of_add_eq hlast)
    · rw [stripNewline_of_ne hlength hk htested, Except.ok.injEq, eq_comm, nameOf_eq_cstring_iff]
      refine ⟨fun hend => ⟨hfits.1, hfits.2, fun hend' => absurd hend' hend⟩, ?_⟩
      rintro ⟨-, -, hshort⟩ hend
      have hlast : k + 1 = strlen line := by
        rw [← hkmod, Nat.mod_eq_of_lt ((hshort hend).trans (by decide))]
      rw [getLast?_cstring hk hlast] at hend
      exact htested (Option.some.inj hend)
  · rw [stripNewline_of_nonpos (not_lt.mp hpos)]
    refine ⟨fun h => (by cases h), fun hfits => ?_⟩
    exact absurd ((toInt_pos_iff _).mpr ⟨hfits.1, hfits.2.1⟩) hpos

/-! ### The whole file -/

theorem readLoop_of_none {content : List UInt8} (h : getline content = none) :
    readLoop content = .ok [] := by
  rw [readLoop]
  split
  · rfl
  · rename_i hline
    rw [h] at hline
    cases hline

theorem readLoop_of_some {content line rest : List UInt8}
    (h : getline content = some (line, rest)) :
    readLoop content = (do
      let input ← stripNewline (lineBuffer line)
      let stored ← readLoop rest
      return cstring input :: stored) := by
  rw [readLoop]
  split
  · rename_i hline
    rw [h] at hline
    cases hline
  · rename_i hline
    rw [h] at hline
    obtain ⟨rfl, rfl⟩ := Prod.mk.inj (Option.some.inj hline)
    rfl

/-- The loop stores the names if and only if each pass of its body stores the name of its line. -/
theorem readLoop_eq_iff (content : List UInt8) :
    readLoop content = .ok ((getlines content).map nameOf) ↔
      ∀ line ∈ getlines content,
        cstring <$> stripNewline (lineBuffer line) = .ok (nameOf line) := by
  unfold getlines
  induction content using records.induct newline with
  | case1 content hline =>
      rw [readLoop_of_none hline, records_of_none hline]
      simp
  | case2 content line rest hline ih =>
      rw [readLoop_of_some hline, records_of_some hline, List.map_cons, List.forall_mem_cons, ← ih]
      cases stripNewline (lineBuffer line) with
      | error index => exact ⟨fun h => (by cases h), fun h => (by cases h.1)⟩
      | ok input =>
          cases readLoop rest with
          | error index => exact ⟨fun h => (by cases h), fun h => (by cases h.2)⟩
          | ok stored => simp [bind, Except.bind, pure, Except.pure, Functor.map, Except.map]

/-- The strings that are stored for a file whose lines fit. -/
theorem readLoop_of_fits {content : List UInt8} (h : ∀ line ∈ getlines content, Fits line) :
    readLoop content = .ok ((getlines content).map nameOf) := by
  rw [readLoop_eq_iff]
  intro line hline
  exact (stored_iff (of_mem_records hline).2).mpr (h line hline)

/-- **Lines are split safely and exactly as long as their lengths fit.** For every file content,
the read loop touches no byte outside of its line's buffer and stores, in the order of the file,
each line that `getline` returns up to its first zero byte and without the newline at its end, if
and only if in every line the number of bytes before the first zero byte is not zero and stays
positive as an `int`, and is below `2 ^ 31` where there is a newline to be removed. -/
theorem readLoop_exact_iff (content : List UInt8) :
    readLoop content = .ok ((getlines content).map nameOf) ↔
      ∀ line ∈ getlines content, Fits line := by
  rw [readLoop_eq_iff]
  apply forall₂_congr
  intro line hline
  exact stored_iff (of_mem_records hline).2

/-- A line that begins with a zero byte. -/
theorem readLoop_outside : readLoop [0, newline] = .error (-1) ∧
    readLoop [0, newline] ≠ .ok ((getlines [0, newline]).map nameOf) := by
  have houtside : readLoop [0, newline] = .error (-1) := by
    have hlength : toInt (strlen [0, newline]) = 0 := by decide
    rw [readLoop_of_some (show getline [0, newline] = some ([0, newline], []) by decide),
      stripNewline_of_nonpos hlength.le, hlength]
    rfl
  refine ⟨houtside, ?_⟩
  rw [houtside]
  intro h
  cases h

/-! ### Files of names -/

/-- A string that can stand in a line of a file. -/
structure IsName (name : List UInt8) : Prop where
  no_newline : newline ∉ name
  no_zero : 0 ∉ name
  short : name.length + 1 < 2 ^ 31

theorem IsName.cstring_eq {name : List UInt8} (h : IsName name) : cstring name = name :=
  upTo_of_notMem h.no_zero

theorem IsName.cstring_line {name : List UInt8} (h : IsName name) :
    cstring (name ++ [newline]) = name ++ [newline] := by
  apply upTo_of_notMem
  rw [List.mem_append, not_or]
  exact ⟨h.no_zero, by decide⟩

theorem IsName.line {name : List UInt8} (h : IsName name) :
    Fits (name ++ [newline]) ∧ nameOf (name ++ [newline]) = name := by
  have hlength : strlen (name ++ [newline]) = name.length + 1 := by
    rw [strlen, h.cstring_line, List.length_append]
    rfl
  have hshort := h.short
  refine ⟨?_, ?_⟩
  · rw [Fits, hlength]
    exact ⟨by omega, by omega, fun _ => hshort⟩
  · rw [nameOf, h.cstring_line, if_pos List.getLast?_concat, List.dropLast_concat]

theorem IsName.last {name : List UInt8} (h : IsName name) (hne : name ≠ []) :
    Fits name ∧ nameOf name = name := by
  have hlength : strlen name = name.length := congrArg List.length h.cstring_eq
  have hshort := h.short
  have hpos := List.length_pos_of_ne_nil hne
  refine ⟨?_, ?_⟩
  · rw [Fits, hlength]
    exact ⟨by omega, by omega, fun _ => by omega⟩
  · rw [nameOf, h.cstring_eq, if_neg]
    exact fun hlast => h.no_newline (List.mem_of_getLast? hlast)

/-- A file that was written as names, one a line, is read as these names, whether or not the last
of them is followed by a newline. -/
theorem readLoop_of_names {names : List (List UInt8)} {last : List UInt8}
    (h : ∀ name ∈ names, IsName name) (hlast : IsName last) :
    readLoop ((names.flatMap fun name => name ++ [newline]) ++ last) =
      .ok (names ++ if last = [] then [] else [last]) := by
  have hlines : getlines ((names.flatMap fun name => name ++ [newline]) ++ last) =
      (names.map fun name => name ++ [newline]) ++ if last = [] then [] else [last] :=
    records_joined (fun name hname => (h name hname).no_newline) hlast.no_newline
  have hnames : (names.map fun name => name ++ [newline]).map nameOf = names := by
    calc
      (names.map fun name => name ++ [newline]).map nameOf =
          names.map fun name => nameOf (name ++ [newline]) := List.map_map
      _ = names.map fun name => name :=
        List.map_congr_left fun name hname => (h name hname).line.2
      _ = names := List.map_id' names
  rw [readLoop_of_fits, hlines, List.map_append, hnames]
  · split_ifs with hempty
    · rfl
    · rw [List.map_singleton, (hlast.last hempty).2]
  · intro line hline
    rw [hlines, List.mem_append, List.mem_map] at hline
    rcases hline with ⟨name, hname, rfl⟩ | hline
    · exact (h name hname).line.1
    · split_ifs at hline with hempty
      · cases hline
      · rw [List.mem_singleton.mp hline]
        exact (hlast.last hempty).1

/-! ### The requesters -/

/-- The files have the contents: the strings that requesters store for a file are the ones that
the read loop makes of it. -/
def Env.Reads (env : Env (List UInt8)) (content : FileName → List UInt8) : Prop :=
  ∀ filename, readLoop (content filename) = .ok (env.file filename).lines

/-- The same of the files that the read loop gets through. -/
def Env.Holds (env : Env (List UInt8)) (content : FileName → List UInt8) : Prop :=
  ∀ filename lines, readLoop (content filename) = .ok lines → (env.file filename).lines = lines

theorem Env.Reads.holds {env : Env (List UInt8)} {content : FileName → List UInt8}
    (h : env.Reads content) : env.Holds content :=
  fun filename _ hlines => Except.ok.inj ((h filename).symm.trans hlines)

/-- The names of all files. -/
theorem lines_of_contents {args : Args (List UInt8)} {content : FileName → List UInt8}
    (hopenable : args.Openable) (hholds : args.env.Holds content)
    (hfits : ∀ filename ∈ args.validFiles, ∀ line ∈ getlines (content filename), Fits line) :
    args.lines = ((args.validFiles.flatMap fun filename =>
      (getlines (content filename)).map nameOf : List _) : Multiset _) := by
  have hfiles : args.validFiles.map (fileLines args.env) = args.validFiles.map
      fun filename => (((getlines (content filename)).map nameOf : List _) : Multiset _) := by
    apply List.map_congr_left
    intro filename hmem
    rw [fileLines_of_openable (hopenable.2 filename hmem),
      hholds filename _ (readLoop_of_fits (hfits filename hmem))]
  rw [Args.lines, hfiles, ← Multiset.sum_coe, List.flatMap, ← Multiset.coe_join, List.map_map]
  rfl

/-- The names in the file at an index. -/
def namesAt (content : FileName → List UInt8) (filenames : List FileName) (index : Nat) :
    List (List UInt8) :=
  (filenames[index]?).elim [] fun filename => (getlines (content filename)).map nameOf

/-- At every moment of a run a requester has stored the names of the files it has claimed, in
order, as far as it has come. -/
theorem enqueued_of_contents {args : Args (List UInt8)} {content : FileName → List UInt8}
    (hopenable : args.Openable) (hreads : args.env.Reads content)
    (hfits : ∀ filename, ∀ line ∈ getlines (content filename), Fits line)
    {s : State (List UInt8) args.requesterThreadsCount args.resolverThreadCount}
    (h : Reachable args s) (i : Fin args.requesterThreadsCount) :
    (s.requester i).enqueued <+:
      (s.requester i).claimed.flatMap (namesAt content args.validFiles) := by
  have hlines : linesAt args.env args.validFiles = namesAt content args.validFiles := by
    funext index
    rw [linesAt, namesAt]
    cases hfile : args.validFiles[index]? with
    | none => rfl
    | some filename =>
        have hopen := hopenable.2 filename (List.mem_of_getElem? hfile)
        have hlines := hreads.holds filename _ (readLoop_of_fits (hfits filename))
        rw [FileEntry.fopenUpdate] at hopen
        split_ifs at hopen with hmode
        · rw [Option.bind_some, FileEntry.fopenUpdate, if_pos hmode]
          exact hlines
        · cases hopen
  rw [← hlines, ← (accounted h).course i, Requester.course, List.append_assoc]
  exact List.prefix_append _ _

end OperatingSystems.Lookup

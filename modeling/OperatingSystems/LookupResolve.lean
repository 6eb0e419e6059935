import OperatingSystems.LookupCompletion
import OperatingSystems.LookupLines

/-!
How a name becomes a line of `results.txt`. `dnslookup` converts every address that it is given
and keeps the first one; a resolver calls it with the same buffer for all of its names, and prints
a line for each.
-/

namespace OperatingSystems.Lookup

open Records Runs

/-! ### Strings and buffers -/

/-- `INET_ADDRSTRLEN`. -/
def inetAddrstrlen : Nat := 16

/-- `INET6_ADDRSTRLEN`. -/
def inet6Addrstrlen : Nat := 46

/-- `strncpy(dest, src, size)`. -/
def strncpy (dest src : List UInt8) (size : Nat) : List UInt8 :=
  src.take size ++ List.replicate (size - src.length) 0 ++ dest.drop size

/-- `dest[size - 1] = '\0'`. -/
def terminate (dest : List UInt8) (size : Nat) : List UInt8 := dest.set (size - 1) 0

/-! ### The lookup of a name -/

/-- The `ai_addr` of an element of the result list, by its family; that of an IPv4 address has the
four bytes of `sin_addr`. -/
inductive SockAddr where
  | inet (a b c d : UInt8)
  | inet6
  | other

/-- `getaddrinfo`: the list of the results, or an error. -/
abbrev NameService := List UInt8 → Option (List SockAddr)

def decimal (b : UInt8) : List UInt8 := (Nat.toDigits 10 b.toNat).map Char.toUInt8

/-- An IPv4 address in dotted decimal. -/
def dotted (a b c d : UInt8) : List UInt8 :=
  decimal a ++ ascii "." ++ decimal b ++ ascii "." ++ decimal c ++ ascii "." ++ decimal d

/-- `inet_ntop` for an IPv4 address: its text, or `NULL` if the buffer does not hold it. -/
def inetNtop (a b c d : UInt8) (size : Nat) : Option (List UInt8) :=
  if (dotted a b c d).length + 1 ≤ size then some (dotted a b c d) else none

def utilFailure : Int := -1

def utilSuccess : Int := 0

def unhandeled : List UInt8 := ascii "UNHANDELED"

/-- The new `ipstr` for a result; nothing if the conversion fails. -/
def convert (ipstr : List UInt8) : SockAddr → Option (List UInt8)
  | .inet a b c d =>
      (inetNtop a b c d inetAddrstrlen).map fun ipv4str =>
        terminate (strncpy ipstr ipv4str inet6Addrstrlen) inet6Addrstrlen
  | .inet6 => some (terminate (strncpy ipstr unhandeled inet6Addrstrlen) inet6Addrstrlen)
  | .other => some (terminate (strncpy ipstr unhandeled inet6Addrstrlen) inet6Addrstrlen)

/-- The loop over the results, with the status returned and what it leaves in `firstIPstr`. -/
def resultLoop (maxSize : Nat) (atHead : Bool) (ipstr firstIPstr : List UInt8) :
    List SockAddr → Int × List UInt8
  | [] => (utilSuccess, firstIPstr)
  | result :: rest =>
      match convert ipstr result with
      | none => (utilFailure, firstIPstr)
      | some ipstr =>
          let firstIPstr :=
            if atHead then terminate (strncpy firstIPstr (cstring ipstr) maxSize) maxSize
            else firstIPstr
          resultLoop maxSize false ipstr firstIPstr rest

/-- `ipstr` is what the stack holds where the local array comes to lie. -/
def dnslookup (getaddrinfo : NameService) (ipstr hostname firstIPstr : List UInt8)
    (maxSize : Nat) : Int × List UInt8 :=
  match getaddrinfo hostname with
  | none => (utilFailure, firstIPstr)
  | some results => resultLoop maxSize true ipstr firstIPstr results

/-! ### The lines that are printed -/

/-- What the caller makes of a lookup: the string in the buffer, unless the lookup failed. -/
def answerOf (looked : Int × List UInt8) : Option (List UInt8) :=
  if looked.1 = utilFailure then none else some (cstring looked.2)

/-- `dnslookup` of an environment is what resolvers find out, whatever is left on the stack and in
the `ipString` that they pass. -/
def Resolves (env : Env (List UInt8)) (getaddrinfo : NameService) : Prop :=
  ∀ name ipstr ipString, ipString.length = inetAddrstrlen →
    answerOf (dnslookup getaddrinfo ipstr name ipString inetAddrstrlen) =
      (env.dnslookup name).map ascii

/-- The two calls of `fprintf(results, ...)`. -/
def resultLine (result : List UInt8 × Option String) : List UInt8 :=
  match result.2 with
  | none => result.1 ++ ascii ",\n"
  | some ipString => result.1 ++ ascii "," ++ ascii ipString ++ ascii "\n"

/-- What is printed to `results.txt`, in the order in which it is printed. -/
def resultsText (results : List (List UInt8 × Option String)) : List UInt8 :=
  results.flatMap resultLine

/-! ### What should be printed -/

/-- The text for an address. -/
def SockAddr.text : SockAddr → List UInt8
  | .inet a b c d => dotted a b c d
  | .inet6 | .other => unhandeled

/-- The text of the first address of a name. -/
def firstAddress (getaddrinfo : NameService) (name : List UInt8) : Option (List UInt8) :=
  (getaddrinfo name).bind fun results => results.head?.map SockAddr.text

/-- `','`. -/
def comma : UInt8 := 44

/-- The two fields of a line of `results.txt`: the name can have commas in it, the address has
none. -/
def fields (line : List UInt8) : List UInt8 × Option (List UInt8) :=
  let address := (upTo comma line.dropLast.reverse).reverse
  (line.take (line.length - address.length - 2), if address = [] then none else some address)

/-! ### Addresses -/

theorem cstring_terminate (dest : List UInt8) {src : List UInt8} {size : Nat} (hsrc : 0 ∉ src)
    (hsize : 0 < size) :
    cstring (terminate (strncpy dest src size) size) = src.take (size - 1) := by
  obtain ⟨k, rfl⟩ := Nat.exists_eq_succ_of_ne_zero hsize.ne'
  have hlength : k < (strncpy dest src (k + 1)).length := by
    simp [strncpy]
    omega
  have htake : (strncpy dest src (k + 1)).take k =
      src.take k ++ List.replicate (k - src.length) 0 := by
    simp [strncpy, List.take_append, List.take_replicate, List.take_take]
    omega
  have hzeros : ∀ j rest, ∃ rest' : List UInt8,
      List.replicate j 0 ++ (0 : UInt8) :: rest = 0 :: rest' := by
    intro j rest
    cases j with
    | zero => exact ⟨rest, rfl⟩
    | succ j => exact ⟨_, rfl⟩
  obtain ⟨rest, hrest⟩ :=
    hzeros (k - src.length) ((strncpy dest src (k + 1)).drop (k + 1))
  rw [terminate, Nat.succ_sub_one, List.set_eq_take_append_cons_drop, if_pos hlength, htake,
    List.append_assoc, hrest]
  exact upTo_joined (fun hmem => hsrc (List.mem_of_mem_take hmem)) rest

theorem decimal_length_le (b : UInt8) : (decimal b).length ≤ 3 := by
  rw [decimal, List.length_map, Nat.length_toDigits_le_iff (by decide) (by decide)]
  exact b.toNat_lt.trans (by decide)

theorem mem_decimal {b x : UInt8} (h : x ∈ decimal b) : 48 ≤ x ∧ x ≤ 57 := by
  obtain ⟨c, hc, rfl⟩ := List.mem_map.mp h
  have hdigit := Nat.isDigit_of_mem_toDigits (by decide) (by decide) hc
  rw [Char.isDigit, Bool.and_eq_true, decide_eq_true_eq, decide_eq_true_eq] at hdigit
  have hlow : 48 ≤ c.toNat := hdigit.1
  have hhigh : c.toNat ≤ 57 := hdigit.2
  have hbyte : c.toUInt8.toNat = c.toNat := Nat.mod_eq_of_lt (show c.toNat < 2 ^ 8 by omega)
  rw [UInt8.le_iff_toNat_le, UInt8.le_iff_toNat_le, hbyte]
  exact ⟨hlow, hhigh⟩

/-- A dotted address fits into `INET_ADDRSTRLEN` bytes. -/
theorem dotted_length (a b c d : UInt8) : (dotted a b c d).length + 1 ≤ inetAddrstrlen := by
  have ha := decimal_length_le a
  have hb := decimal_length_le b
  have hc := decimal_length_le c
  have hd := decimal_length_le d
  have hpoint : (ascii ".").length = 1 := rfl
  simp only [dotted, List.length_append, hpoint, inetAddrstrlen]
  omega

theorem mem_dotted {a b c d x : UInt8} (h : x ∈ dotted a b c d) : x = 46 ∨ 48 ≤ x ∧ x ≤ 57 := by
  simp only [dotted, List.mem_append, or_assoc] at h
  rcases h with h | h | h | h | h | h | h
  · exact Or.inr (mem_decimal h)
  · exact Or.inl (List.mem_singleton.mp h)
  · exact Or.inr (mem_decimal h)
  · exact Or.inl (List.mem_singleton.mp h)
  · exact Or.inr (mem_decimal h)
  · exact Or.inl (List.mem_singleton.mp h)
  · exact Or.inr (mem_decimal h)

/-- What a text is made of. -/
structure IsAddress (text : List UInt8) : Prop where
  ne_nil : text ≠ []
  short : text.length + 1 ≤ inetAddrstrlen
  no_zero : 0 ∉ text
  no_comma : comma ∉ text
  no_newline : newline ∉ text

theorem isAddress_text (result : SockAddr) : IsAddress result.text := by
  cases result with
  | inet a b c d =>
      refine ⟨?_, dotted_length a b c d, fun h => ?_, fun h => ?_, fun h => ?_⟩
      · simp [SockAddr.text, dotted, ascii]
      all_goals
        rcases mem_dotted h with heq | hdigit
        · exact absurd heq (by decide)
        · exact absurd hdigit (by decide)
  | inet6 | other => exact ⟨by decide, by decide, by decide, by decide, by decide⟩

/-! ### The loop over the results -/

/-- No conversion fails: the local array holds the text of every address. -/
theorem convert_spec (ipstr : List UInt8) (result : SockAddr) :
    ∃ ipstr', convert ipstr result = some ipstr' ∧ cstring ipstr' = result.text := by
  have haddress := isAddress_text result
  have hkept : (result.text).take (inet6Addrstrlen - 1) = result.text :=
    List.take_of_length_le (Nat.le_of_succ_le_succ (haddress.short.trans (by decide)))
  have hcopied := cstring_terminate ipstr haddress.no_zero (show 0 < inet6Addrstrlen by decide)
  rw [hkept] at hcopied
  cases result with
  | inet a b c d =>
      refine ⟨_, ?_, hcopied⟩
      rw [convert, inetNtop, if_pos (dotted_length a b c d), Option.map_some]
      rfl
  | inet6 | other => exact ⟨_, rfl, hcopied⟩

/-- The results behind the first are converted for nothing. -/
theorem resultLoop_behind (maxSize : Nat) (ipstr firstIPstr : List UInt8)
    (results : List SockAddr) :
    resultLoop maxSize false ipstr firstIPstr results = (utilSuccess, firstIPstr) := by
  induction results generalizing ipstr with
  | nil => rfl
  | cons result rest ih =>
      obtain ⟨ipstr', hconvert, -⟩ := convert_spec ipstr result
      rw [resultLoop, hconvert]
      exact ih ipstr'

/-- A lookup gives the first address, and nothing of what its buffers held before. -/
theorem answerOf_dnslookup {getaddrinfo : NameService} {hostname : List UInt8}
    (hfound : getaddrinfo hostname ≠ some []) (ipstr firstIPstr : List UInt8) :
    answerOf (dnslookup getaddrinfo ipstr hostname firstIPstr inetAddrstrlen) =
      firstAddress getaddrinfo hostname := by
  unfold dnslookup firstAddress
  cases hresults : getaddrinfo hostname with
  | none => rfl
  | some results =>
      cases results with
      | nil => exact absurd hresults hfound
      | cons result rest =>
          obtain ⟨ipstr', hconvert, htext⟩ := convert_spec ipstr result
          have haddress := isAddress_text result
          have hkept : (result.text).take (inetAddrstrlen - 1) = result.text :=
            List.take_of_length_le (Nat.le_of_succ_le_succ haddress.short)
          have hcopied := cstring_terminate firstIPstr haddress.no_zero
            (show 0 < inetAddrstrlen by decide)
          simp only [resultLoop, hconvert, htext, resultLoop_behind, if_true]
          rw [hkept] at hcopied
          exact congrArg some hcopied

/-! ### Lines and fields -/

theorem fields_joined (name : List UInt8) {address : List UInt8} (h : comma ∉ address) :
    fields (name ++ comma :: address ++ [newline]) =
      (name, if address = [] then none else some address) := by
  have hback : upTo comma (name ++ comma :: address).reverse = address.reverse := by
    rw [List.reverse_append, List.reverse_cons, List.append_assoc, List.singleton_append]
    exact upTo_joined (by rwa [List.mem_reverse]) name.reverse
  have htake :
      (name ++ comma :: address ++ [newline]).length - address.length - 2 = name.length := by
    simp
    omega
  rw [fields, List.dropLast_concat, hback, List.reverse_reverse, htake, List.append_assoc,
    List.take_left]

/-- A name has no newline, as its line had none before its end. -/
theorem newline_notMem_nameOf {line : List UInt8} (h : newline ∉ line.dropLast) :
    newline ∉ nameOf line := by
  have hleads : cstring line <+: line := upTo_isPrefix line
  have hfront : newline ∉ (cstring line).dropLast := by
    intro hmem
    obtain ⟨rest, hrest⟩ := hleads
    refine h ?_
    rw [← hrest, List.dropLast_append]
    split_ifs with hempty
    · exact hmem
    · exact List.mem_append_left _ (List.mem_of_mem_dropLast hmem)
  rw [nameOf]
  split_ifs with hlast
  · exact hfront
  · intro hmem
    have hne : cstring line ≠ [] := List.ne_nil_of_mem hmem
    rw [← List.dropLast_append_getLast hne, List.mem_append, List.mem_singleton] at hmem
    rcases hmem with hmem | heq
    · exact hfront hmem
    · exact hlast (by rw [List.getLast?_eq_some_getLast hne, heq])

/-- What can be printed and read back: the name has no newline, the address is one. -/
def Printable (result : List UInt8 × Option String) : Prop :=
  newline ∉ result.1 ∧ ∀ ipString, result.2 = some ipString → IsAddress (ascii ipString)

theorem resultLine_eq (result : List UInt8 × Option String) :
    resultLine result = result.1 ++ comma :: (result.2.map ascii).getD [] ++ [newline] := by
  obtain ⟨name, address⟩ := result
  cases address with
  | none => exact (List.append_assoc name [comma] [newline]).symm
  | some ipString => simp [resultLine, show ascii "," = [comma] from rfl,
      show ascii "\n" = [newline] from rfl]

/-- What is printed is read back, line by line. -/
theorem fields_resultsText {results : List (List UInt8 × Option String)}
    (h : ∀ result ∈ results, Printable result) :
    (records newline (resultsText results)).map fields =
      results.map fun result => (result.1, result.2.map ascii) := by
  have htexts : resultsText results =
      (results.map fun result => result.1 ++ comma :: (result.2.map ascii).getD []).flatMap
        (fun text => text ++ [newline]) ++ [] := by
    rw [List.append_nil, List.flatMap_map]
    exact congrArg (List.flatMap · results) (funext resultLine_eq)
  rw [htexts, records_joined _ List.not_mem_nil, if_pos rfl, List.append_nil, List.map_map,
    List.map_map]
  · apply List.map_congr_left
    rintro ⟨name, address⟩ hmem
    obtain ⟨-, haddress⟩ := h _ hmem
    cases address with
    | none => exact fields_joined name List.not_mem_nil
    | some ipString =>
        have hip := haddress ipString rfl
        exact (fields_joined name hip.no_comma).trans (by rw [if_neg hip.ne_nil]; rfl)
  · intro text htext
    obtain ⟨⟨name, address⟩, hmem, rfl⟩ := List.mem_map.mp htext
    obtain ⟨hname, haddress⟩ := h _ hmem
    rw [List.mem_append, List.mem_cons, not_or, not_or]
    refine ⟨hname, by decide, ?_⟩
    cases address with
    | none => exact List.not_mem_nil
    | some ipString => exact (haddress ipString rfl).no_newline

/-! ### Runs -/

/-- What `results.txt` should say about the files. -/
def expectedFields (getaddrinfo : NameService) (content : FileName → List UInt8)
    (filenames : List FileName) : List (List UInt8 × Option (List UInt8)) :=
  filenames.flatMap fun filename => (getlines (content filename)).map fun line =>
    (nameOf line, firstAddress getaddrinfo (nameOf line))

section Contents

variable {args : Args (List UInt8)} {content : FileName → List UInt8} {getaddrinfo : NameService}
  {s : State (List UInt8) args.requesterThreadsCount args.resolverThreadCount}

/-- The names that have been taken are names of the files. -/
theorem popped_le (h : Reachable args s) (hfault : s.fault = none) : s.popped ≤ args.lines := by
  have hconserved := conserved h (by rw [hfault]; exact nofun)
  have henqueued : s.enqueued ≤ ∑ i, (s.requester i).lines := by
    refine Finset.sum_le_sum fun i _ => ?_
    rw [Requester.lines, add_assoc]
    exact Multiset.le_add_right _ _
  calc
    s.popped ≤ s.enqueued := by
      rw [hconserved.stored]
      exact Multiset.le_add_left _ _
    _ ≤ ∑ i, (s.requester i).lines := henqueued
    _ ≤ args.lines := by
      rw [← hconserved.lines]
      exact Multiset.le_add_left _ _

/-- The name service answers with the first address. -/
theorem dnslookup_of_resolves (hresolves : Resolves args.env getaddrinfo)
    (hfound : ∀ name, getaddrinfo name ≠ some []) (name : List UInt8) :
    (args.env.dnslookup name).map ascii = firstAddress getaddrinfo name :=
  (hresolves name [] (List.replicate inetAddrstrlen 0) List.length_replicate).symm.trans
    (answerOf_dnslookup (hfound name) _ _)

theorem isAddress_of_firstAddress {name address : List UInt8}
    (h : firstAddress getaddrinfo name = some address) : IsAddress address := by
  obtain ⟨results, -, hhead⟩ := Option.bind_eq_some_iff.mp h
  obtain ⟨result, -, rfl⟩ := Option.map_eq_some_iff.mp hhead
  exact isAddress_text result

/-- Every entry of the results can be read back from the file. -/
theorem printable (hopenable : args.Openable) (hreads : args.env.Reads content)
    (hfits : ∀ filename ∈ args.validFiles, ∀ line ∈ getlines (content filename), Fits line)
    (hresolves : Resolves args.env getaddrinfo) (hfound : ∀ name, getaddrinfo name ≠ some [])
    (h : Reachable args s) (hfault : s.fault = none) :
    ∀ result ∈ s.results, Printable result := by
  intro result hmem
  have hpopped : result ∈ s.popped.map args.env.answer := by
    rw [← resolved h]
    exact Multiset.mem_add.mpr (Or.inl (Multiset.mem_coe.mpr hmem))
  obtain ⟨name, hname, rfl⟩ := Multiset.mem_map.mp hpopped
  refine ⟨?_, fun ipString hanswer => ?_⟩
  · have hname := Multiset.mem_of_le (popped_le h hfault) hname
    rw [lines_of_contents hopenable hreads.holds hfits, Multiset.mem_coe, List.mem_flatMap] at hname
    obtain ⟨filename, -, hname⟩ := hname
    obtain ⟨line, hline, rfl⟩ := List.mem_map.mp hname
    exact newline_notMem_nameOf (of_mem_records hline).2
  · have hfirst : firstAddress getaddrinfo name = some (ascii ipString) := by
      rw [← dnslookup_of_resolves hresolves hfound]
      exact congrArg (Option.map ascii) hanswer
    exact isAddress_of_firstAddress hfirst

/-- The answers for the names of all files. -/
theorem expectedFields_eq (hopenable : args.Openable) (hreads : args.env.Reads content)
    (hfits : ∀ filename ∈ args.validFiles, ∀ line ∈ getlines (content filename), Fits line)
    (hresolves : Resolves args.env getaddrinfo) (hfound : ∀ name, getaddrinfo name ≠ some []) :
    ((expectedFields getaddrinfo content args.validFiles : List _) : Multiset _) =
      (args.lines.map args.env.answer).map fun result => (result.1, result.2.map ascii) := by
  have hanswer : ∀ name, (name, firstAddress getaddrinfo name) =
      (name, (args.env.answer name).2.map ascii) := fun name => by
    rw [← dnslookup_of_resolves hresolves hfound]
    rfl
  rw [lines_of_contents hopenable hreads.holds hfits, Multiset.map_coe, Multiset.map_coe,
    List.map_map, List.map_flatMap, expectedFields]
  simp only [List.map_map, hanswer]
  rfl

/-- **From the bytes of the files to the bytes printed.** In a well-timed run over files that can be
opened for update and whose lines fit, what is printed to `results.txt` can be read back at every
moment, and tells of lines of the files, each at most as often as it occurs, its name and the text
of its first address or that it was not found; when no thread can go on it tells of all of them. It
does not matter what the resolvers' buffers held before. -/
theorem results_told (args : Args (List UInt8)) (content : FileName → List UInt8)
    (getaddrinfo : NameService) (hopenable : args.Openable) (hreads : args.env.Reads content)
    (hfits : ∀ filename ∈ args.validFiles, ∀ line ∈ getlines (content filename), Fits line)
    (hresolves : Resolves args.env getaddrinfo) (hfound : ∀ name, getaddrinfo name ≠ some [])
    (s : State (List UInt8) args.requesterThreadsCount args.resolverThreadCount)
    (h : Reach (step args.env) WellTimed (start args) s) :
    ((records newline (resultsText s.results)).map fields).Subperm
        (expectedFields getaddrinfo content args.validFiles) ∧
      (s.Rests args.env → ((records newline (resultsText s.results)).map fields).Perm
        (expectedFields getaddrinfo content args.validFiles)) := by
  have hfault := fault_none hopenable h
  have hreach : Reachable args s := h.mono fun _ _ _ => trivial
  have hresolved := resolved hreach
  rw [← Multiset.coe_le, ← Multiset.coe_eq_coe,
    fields_resultsText (printable hopenable hreads hfits hresolves hfound hreach hfault),
    expectedFields_eq hopenable hreads hfits hresolves hfound, ← Multiset.map_coe]
  refine ⟨Multiset.map_le_map ?_, fun hrests => congrArg _ ?_⟩
  · calc
      (s.results : Multiset (List UInt8 × Option String)) ≤ s.popped.map args.env.answer := by
        rw [← hresolved]
        exact Multiset.le_add_right _ _
      _ ≤ args.lines.map args.env.answer := Multiset.map_le_map (popped_le hreach hfault)
  · obtain ⟨hrequesters, hresolvers⟩ := exited_of_rests hopenable h hrests
    exact results_of_exited hreach hfault hrequesters hresolvers

end Contents

/-- Two results for every name, the first of them an IPv4 address. -/
def twoResults : NameService := fun _ => some [.inet 127 0 0 1, .inet6]

theorem oneEachBytes_told :
    ∃ s, exec (step oneEachBytes.env) (start oneEachBytes) oneAfterOther = some s ∧
      ((records newline (resultsText s.results)).map fields).Perm
        (expectedFields twoResults (fun _ => ascii "a.com\n") oneEachBytes.validFiles) := by
  have hrun : (exec (guarded (step oneEachBytes.env) WellTimed) (start oneEachBytes)
      oneAfterOther).map (fun s => decide (s.Rests oneEachBytes.env)) = some true := by decide
  obtain ⟨s, hexec, hrests⟩ := Option.map_eq_some_iff.mp hrun
  have hfound : ∀ name, twoResults name ≠ some [] := by simp [twoResults]
  have hresolves : Resolves oneEachBytes.env twoResults := fun name ipstr ipString _ =>
    (answerOf_dnslookup (hfound name) ipstr ipString).trans
      (show some (dotted 127 0 0 1) = some (ascii "127.0.0.1") by decide)
  exact ⟨s, exec_of_guarded hexec, (results_told oneEachBytes _ twoResults
    (by unfold Args.Openable; decide) oneEachBytes_reads (fun _ _ => oneEachBytes_fits) hresolves
    hfound s (.of_guarded_exec .refl hexec)).2 (of_decide_eq_true hrests)⟩

end OperatingSystems.Lookup

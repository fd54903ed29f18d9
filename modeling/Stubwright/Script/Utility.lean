import Stubwright.Script.Condition
import Stubwright.Script.Pattern

/-!
# Programs of the system

The effect of the programs that scripts call and that do not run other programs.  A program reads
its input, writes its output, takes some time and ends with a status.
-/

namespace Stubwright.Script

/-- What a program did. -/
structure Effect where
  /-- What it wrote. -/
  out : List Char
  status : Nat
  time : Nat

namespace Effect

def wrote (text : List Char) : Effect := ⟨text, 0, 0⟩

/-- The effect of a program that wrote nothing. -/
def ended (status : Nat) : Effect := ⟨[], status, 0⟩

end Effect

def textLines (text : List Char) : List (List Char) :=
  let lines := (Text.linesWithEnds text)
  lines.map fun l => if l.getLast? = some '\n' then l.dropLast else l

def blankWords (text : List Char) : List (List Char) :=
  let isBlank (c : Char) : Bool := c = ' ' || c = '\n' || c = '\t'
  (text.splitBy fun a b => isBlank a == isBlank b).filter fun w => w.head?.any fun c => !isBlank c

def unlines (lines : List (List Char)) : List Char :=
  lines.flatMap fun l => l ++ ['\n']

/-- The texts of files, or the input where none is named, and whether all were there. -/
def contents (s : Shell) (files : List String) : List Char × Bool :=
  if files.isEmpty then (s.input, true)
  else files.foldl (fun (text, ok) file =>
    if file = "-" then (text ++ s.input, ok)
    else match s.readFile? file with
      | some more => (text ++ more, ok)
      | none => (text, false)) ([], true)

/-- The effect of a program that writes something made of files or its input. -/
def filter (s : Shell) (files : List String) (f : List Char → List Char) : Effect :=
  let (text, ok) := contents s files
  ⟨f text, if ok then 0 else 1, 0⟩

/-- A time that no run gets to, in milliseconds. -/
def endOfTime : Nat := 1000000000000

/-- A time in seconds, minutes, hours or days, in milliseconds. -/
def milliseconds? (arg : String) : Option Nat :=
  let cs := arg.toList
  let whole := cs.takeWhile Char.isDigit
  let rest := cs.drop whole.length
  let (fraction, rest) := match rest with
    | '.' :: rest =>
      let ds := rest.takeWhile Char.isDigit
      (ds, rest.drop ds.length)
    | rest => ([], rest)
  let unit? : Option Nat := match rest with
    | [] | ['s'] => some 1
    | ['m'] => some 60
    | ['h'] => some 3600
    | ['d'] => some 86400
    | _ => none
  if whole.isEmpty && fraction.isEmpty then
    if arg = "infinity" then some endOfTime else none
  else unit?.map fun unit =>
    unit * (ofDigits 10 whole * 1000 + ofDigits 10 ((fraction ++ ['0', '0', '0']).take 3))

def dirname (path : List Char) : List Char :=
  let dropSlashes (cs : List Char) := cs.dropWhile (· = '/')
  let back := dropSlashes path.reverse
  if back.isEmpty then if path.isEmpty then ['.'] else ['/']
  else
    let above := back.dropWhile (· != '/')
    if above.isEmpty then ['.']
    else
      let above := dropSlashes above
      if above.isEmpty then ['/'] else above.reverse

/-- The last name of a path, without an ending. -/
def basename (path ending : List Char) : List Char :=
  let back := path.reverse.dropWhile (· = '/')
  if back.isEmpty then if path.isEmpty then [] else ['/']
  else
    let name := (back.takeWhile (· != '/')).reverse
    if ending.isSuffixOf name && ending != name then name.take (name.length - ending.length)
    else name

/-- The number of lines or bytes that options ask for, and the other arguments. -/
def countOption (args : List String) : Option (Char × Option Char × Nat) × List String :=
  let read (letter : Char) (cs : List Char) : Option (Char × Option Char × Nat) :=
    match cs with
    | c :: ds => if c = '+' || c = '-' then some (letter, some c, ofDigits 10 ds)
      else some (letter, none, ofDigits 10 cs)
    | [] => none
  match args with
  | "-n" :: n :: rest => (read 'n' n.toList, rest)
  | "-c" :: n :: rest => (read 'c' n.toList, rest)
  | arg :: rest =>
    match arg.toList with
    | '-' :: 'n' :: cs => (read 'n' cs, rest)
    | '-' :: 'c' :: cs => (read 'c' cs, rest)
    | '-' :: c :: cs => if c.isDigit then (read 'n' (c :: cs), rest) else (none, args)
    | _ => (none, args)
  | [] => (none, [])

def head (choice : Option (Char × Option Char × Nat)) (text : List Char) : List Char :=
  let lines := Text.linesWithEnds text
  match choice with
  | some ('c', some '-', n) => text.take (text.length - n)
  | some ('c', _, n) => text.take n
  | some (_, some '-', n) => (lines.take (lines.length - n)).flatten
  | some (_, _, n) => (lines.take n).flatten
  | none => (lines.take 10).flatten

def tail (choice : Option (Char × Option Char × Nat)) (text : List Char) : List Char :=
  let lines := Text.linesWithEnds text
  match choice with
  | some ('c', some '+', n) => text.drop (n - 1)
  | some ('c', _, n) => text.drop (text.length - n)
  | some (_, some '+', n) => (lines.drop (n - 1)).flatten
  | some (_, _, n) => (lines.drop (lines.length - n)).flatten
  | none => (lines.drop (lines.length - 10)).flatten

/-- The characters of a set that `tr` is given. -/
def charSet : (fuel : Nat) → List Char → List Char
  | 0, _ => []
  | _, [] => []
  | fuel + 1, '\\' :: cs =>
    let (c, n) := escape cs
    if n = 0 then
      match cs with
      | d :: rest => d :: charSet fuel rest
      | [] => ['\\']
    else c :: charSet fuel (cs.drop n)
  | fuel + 1, '[' :: ':' :: cs =>
    let name := cs.takeWhile (· != ':')
    let ranges := classRanges (String.ofList name)
    let chars := (List.range 256).map Char.ofNat
    (chars.filter fun c => ranges.any fun (low, high) => low ≤ c && c ≤ high)
      ++ charSet fuel (cs.drop (name.length + 2))
  | fuel + 1, a :: '-' :: b :: cs =>
    ((List.range (b.toNat + 1 - a.toNat)).map fun n => Char.ofNat (a.toNat + n))
      ++ charSet fuel cs
  | fuel + 1, c :: cs => c :: charSet fuel cs

/-- The character at the place in one list that another one has in its own; the last one for all
places that are too far. -/
def replaceChar (olds news : List Char) (c : Char) : Char :=
  match olds.idxOf? c with
  | none => c
  | some n =>
    match news[n]? with
    | some d => d
    | none => news.getLastD c

/-- Leaves out characters of a set that follow the same one. -/
def squeeze (set : List Char) : List Char → List Char
  | c :: d :: cs =>
    if c = d && set.contains c then squeeze set (d :: cs) else c :: squeeze set (d :: cs)
  | cs => cs

/-- What `tr` makes of a text. -/
def replaceChars (args : List String) (text : List Char) : List Char :=
  let set (arg : String) := charSet (arg.length + 1) arg.toList
  match args with
  | ["-d", a] => text.filter fun c => !(set a).contains c
  | ["-cd", a] => text.filter fun c => (set a).contains c
  | ["-dc", a] => text.filter fun c => (set a).contains c
  | ["-s", a] => squeeze (set a) text
  | ["-s", a, b] => squeeze (set b) (text.map (replaceChar (set a) (set b)))
  | [a, b] => text.map (replaceChar (set a) (set b))
  | _ => text

/-- The most numbers that a sequence has. -/
def sequenceLimit : Nat := 200000

/-- The whole numbers from one to another. -/
def sequence (first step last : Int) : List Char :=
  let count := if step > 0 then (last - first) / step + 1
    else if step < 0 then (first - last) / (-step) + 1 else 0
  let numbers := (List.range (min count.toNat sequenceLimit)).map fun (n : Nat) =>
    first + step * (n : Int)
  unlines (numbers.map fun n => (toString n).toList)

/-- The first of lines that equal each other in a row. -/
def distinct : List (List Char) → List (List Char)
  | a :: b :: rest => if a = b then distinct (b :: rest) else a :: distinct (b :: rest)
  | lines => lines

def cutFields (sep : Char) (wanted : List Nat) (line : List Char) : List Char :=
  let fields := Text.splitOn sep line
  if fields.length = 1 then line
  else List.intercalate [sep] (wanted.filterMap fun n => fields[n - 1]?)

def fieldNumbers (most : Nat) (list : String) : List Nat :=
  let ranges := (Text.splitOn ',' list.toList).map fun part =>
    match Text.splitOn '-' part with
    | [a, b] => (if a.isEmpty then 1 else ofDigits 10 a, if b.isEmpty then most else ofDigits 10 b)
    | _ => (ofDigits 10 part, ofDigits 10 part)
  (List.range (most + 1)).filter fun n => ranges.any fun (a, b) => a ≤ n && n ≤ b && 0 < n

/-- The options of `cut` with their values, and the other arguments. -/
def cutOptions : List String → List (Char × String) × List String
  | [] => ([], [])
  | arg :: args =>
    match arg.toList, args with
    | ['-', c], value :: rest =>
      let (options, files) := cutOptions rest
      ((c, value) :: options, files)
    | '-' :: c :: d :: cs, args =>
      let (options, files) := cutOptions args
      ((c, String.ofList (d :: cs)) :: options, files)
    | _, args =>
      let (options, files) := cutOptions args
      (options, arg :: files)

def cut (options : List (Char × String)) (text : List Char) : List Char :=
  let sep := ((options.lookup 'd').bind (·.toList.head?)).getD '\t'
  let most := text.length + 1
  match options.lookup 'f', (options.lookup 'c').or (options.lookup 'b') with
  | some list, _ =>
    unlines ((textLines text).map (cutFields sep (fieldNumbers most list)))
  | none, some list =>
    unlines ((textLines text).map fun row =>
      (fieldNumbers most list).filterMap fun n => row[n - 1]?)
  | none, none => []

/-- A path whose names lead from the root. -/
def fullPath (s : Shell) (path : String) : Option (List Char) :=
  match toText? path with
  | none => none
  | some path =>
    match s.host.locate path with
    | .ok place => some (pathOf place).toList
    | .error _ => none

def utility? (s : Shell) (name : String) (args : List String) : Option Effect :=
  let files := args.filter fun a => a.toList.head? != some '-' || a == "-"
  match name with
  | "true" => some (.ended 0)
  | "false" => some (.ended 1)
  | "echo" => some (.wrote (plainEcho args))
  | "printf" =>
    let (out, status) := printfArgs args
    some ⟨out, min status 1, 0⟩
  | "test" => some (.ended (conditionStatus { s with dialect := .extended } args))
  | "[" =>
    if args.getLast? = some "]" then
      some (.ended (conditionStatus { s with dialect := .extended } args.dropLast))
    else some (.ended 2)
  | "sleep" =>
    match args.mapM milliseconds? with
    | some (t :: ts) => some ⟨[], 0, (t :: ts).foldl (· + ·) 0⟩
    | _ => some (.ended 1)
  | "cat" => some (filter s files id)
  | "dirname" =>
    if args.isEmpty then some (.ended 1)
    else some (.wrote (unlines (args.map fun a => dirname a.toList)))
  | "basename" =>
    match args with
    | [a] => some (.wrote (unlines [basename a.toList []]))
    | [a, b] => some (.wrote (unlines [basename a.toList b.toList]))
    | _ => some (.ended 1)
  | "head" =>
    let (choice, files) := countOption args
    some (filter s files (head choice))
  | "tail" =>
    let (choice, files) := countOption args
    some (filter s files (tail choice))
  | "tr" => some (.wrote (replaceChars args s.input))
  | "cut" =>
    let (options, files) := cutOptions args
    some (filter s files (cut options))
  | "rev" => some (filter s files fun t => unlines ((textLines t).map List.reverse))
  | "tac" => some (filter s files fun t => (Text.linesWithEnds t).reverse.flatten)
  | "sort" =>
    some (filter s files fun t =>
      let lines := (textLines t).mergeSort fun a b => String.ofList a ≤ String.ofList b
      let lines := if args.any fun a => a.toList.contains 'u' && a.toList.head? = some '-' then
        distinct lines else lines
      unlines (if args.contains "-r" then lines.reverse else lines))
  | "uniq" => some (filter s files fun t => unlines (distinct (textLines t)))
  | "wc" =>
    let (text, ok) := contents s files
    let count := if args.contains "-l" then (text.filter (· = '\n')).length
      else if args.contains "-w" then (blankWords text).length else text.length
    let line := (toString count).toList ++ (files.flatMap fun f => ' ' :: f.toList) ++ ['\n']
    some ⟨line, if ok then 0 else 1, 0⟩
  | "seq" =>
    match args.mapM decimal? with
    | some [last] => some (.wrote (sequence 1 1 last))
    | some [first, last] => some (.wrote (sequence first 1 last))
    | some [first, step, last] => some (.wrote (sequence first step last))
    | _ => some (.ended 1)
  | "ls" =>
    let shown (dir : String) : List String :=
      (s.names dir).filter fun n => n.toList.head? != some '.' || args.contains "-a"
    match files with
    | [] => some (.wrote (unlines ((shown ".").map String.toList)))
    | [f] =>
      match s.find? f with
      | some .dir => some (.wrote (unlines ((shown f).map String.toList)))
      | some _ => some (.wrote (unlines [f.toList]))
      | none => some (.ended 2)
    | _ =>
      let there := files.filter fun f => (s.find? f).isSome
      some ⟨unlines (there.map String.toList), if there.length = files.length then 0 else 2, 0⟩
  | "uname" =>
    some (.wrote (unlines [(if args.contains "-m" then "x86_64" else "Linux").toList]))
  | "whoami" => some (.wrote (unlines ["root".toList]))
  | "id" => some (.wrote (unlines [(if args.contains "-un" then "root" else "0").toList]))
  | "yes" =>
    let line := (if args.isEmpty then ['y'] else (String.intercalate " " args).toList) ++ ['\n']
    let unread := s.stream 1 = .null
    some ⟨(List.replicate (131072 / line.length + 1) line).flatten, 0,
      if unread then endOfTime else 0⟩
  | "readlink" | "realpath" =>
    match files with
    | [f] => match fullPath s f with
      | some path => if name = "realpath" || args.contains "-f" || args.contains "-e" then
          some (.wrote (path ++ ['\n'])) else some (.ended 1)
      | none => some (.ended 1)
    | _ => some (.ended 1)
  | "pwd" => some (.wrote (unlines [(pathOf s.host.cwd).toList]))
  | _ => none
end Stubwright.Script

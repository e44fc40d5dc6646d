import Mountin.Basic.Bytes
import Mountin.Basic.Crash

set_option autoImplicit false

/-! # The downloader

`download.py`: the sources of an output are tried in their order, over HTTP, git or Subversion. What a
source yields is written to a temporary file beside the output, which replaces the output when it is
complete. The tools and the network are parameters.

* `main_atomic` : the output is what it was or a whole download, wherever the downloader is stopped;
  the first source that yields anything is taken, and no temporary file stays behind.
-/

namespace Mountin.Download

open Prog

/-! ## The program -/

/-- The output, and the temporary file of this process. -/
structure World where
  dest : Option Bytes
  tmp : Option Bytes

/-- What is written to a file, up to its end or an exception. -/
structure Stream where
  chunks : List Bytes
  broken : Bool

/-- A response: the header `Content-Length`, of which `int` may raise, and what can be read. -/
structure Response where
  length : Except Unit (Option Nat)
  body : Stream

/-- The network and the programs. `run` is a command behind the earlier ones, where `true` is the
status 0; it raises where there is no such program. `tar` packs a directory under a name. -/
structure Tools where
  urlopen : String → Except Unit Response
  tmpdir : String
  run : List (List String) → Except Unit Bool
  rmtree : String → Except Unit Unit
  tar : List (List String) → String → Stream
  isdecimal : String → Bool

abbrev Run (α : Type) := Prog World Unit α

/-- `tmp.unlink(missing_ok=True)`. -/
def unlink : Run Unit := act fun w => { w with tmp := none }

/-- `temporary_output`. -/
def temporaryOutput (body : Run Unit) : Run Unit :=
  (act fun w => { w with tmp := some [] }).bind fun _ => body.finally' unlink

/-- One `write`. -/
def append (chunk : Bytes) : Run Unit := act fun w => { w with tmp := w.tmp.map (· ++ chunk) }

/-- A copy into the temporary file. -/
def copy (stream : Stream) : Run Unit :=
  (each stream.chunks append).bind fun _ => if stream.broken then raise () else ret ()

/-- `tmp.replace(dest)`. -/
def replace : Run Unit := act fun w => ⟨w.tmp, none⟩

/-- `except Exception: return False`. -/
def orFalse (body : Run Bool) : Run Bool := fun w =>
  match (body w).result with
  | .ok _ => body w
  | .error _ => { body w with result := .ok false }

/-- `download_file`. -/
def downloadFile (t : Tools) (url : String) : Run Bool :=
  orFalse ((temporaryOutput
    ((lift (t.urlopen url)).bind fun response =>
      (lift response.length).bind fun expected =>
      (copy response.body).bind fun _ =>
      (look fun w => (w.tmp.getD []).length).bind fun got =>
      if expected.any (· != got) then raise () else replace)).bind fun _ => ret true)

/-- The packing of a directory. -/
def pack (t : Tools) (commands : List (List String)) (exportName : String) : Run Bool :=
  (temporaryOutput ((copy (t.tar commands exportName)).bind fun _ => replace)).bind fun _ => ret true

/-- `str.split("#", 1)`. -/
def splitFirst (s : List Char) : List Char × List Char :=
  (s.takeWhile (· != '#'), (s.dropWhile (· != '#')).tail)

/-- `str.rsplit("#", 1)`. -/
def splitLast (s : List Char) : List Char × List Char :=
  ((splitFirst s.reverse).2.reverse, (splitFirst s.reverse).1.reverse)

/-- `repo_url.rstrip("/").rsplit("/", 1)[-1]`. -/
def lastPart (url : List Char) : List Char :=
  (((url.reverse).dropWhile (· == '/')).takeWhile (· != '/')).reverse

/-- `removesuffix`. -/
def removeSuffix (suffix s : List Char) : List Char :=
  if suffix.isSuffixOf s then s.take (s.length - suffix.length) else s

/-- The commands of `clone_repo`. -/
def gitCommands (shallow : Bool) (cloneDir repoUrl ref : String) : List (List String) :=
  [["git", "init", cloneDir], ["git", "-C", cloneDir, "remote", "add", "origin", repoUrl],
    ["git", "-C", cloneDir, "fetch"] ++
      (if shallow then ["--depth", "1", "origin", ref] else ["origin"]),
    ["git", "-C", cloneDir, "checkout", "--detach", "FETCH_HEAD"],
    ["git", "-C", cloneDir, "submodule", "update", "--init", "--recursive", "--depth", "1"]]

/-- The loop over the commands, behind those that are done. -/
def runAll (t : Tools) : List (List String) → List (List String) → Except Unit Bool
  | _, [] => .ok true
  | done, command :: rest => do
      let ok ← t.run (done ++ [command])
      if ok then runAll t (done ++ [command]) rest else return false

/-- The repository and the reference that a URL of `clone_repo` names. -/
def cloneSource (shallow : Bool) (url : String) : Option (List Char × List Char) :=
  let pre := (if shallow then "git+" else "git-full+").toList
  if !url.toList.contains '#' then none
  else if !pre.isPrefixOf url.toList then none
  else some (splitFirst (url.toList.drop pre.length))

/-- `export_name` of `clone_repo`. -/
def cloneName (parts : List Char × List Char) : String :=
  String.ofList (removeSuffix ".git".toList (lastPart parts.1) ++ '-' :: parts.2)

/-- The commands of `clone_repo` for a source. -/
def cloneCommands (t : Tools) (shallow : Bool) (parts : List Char × List Char) : List (List String) :=
  gitCommands shallow (t.tmpdir ++ "/" ++ cloneName parts) (String.ofList parts.1)
    (String.ofList parts.2)

/-- `shutil.rmtree(clone_dir / ".git")`, if the clone is not shallow. -/
def removeHistory (t : Tools) (shallow : Bool) (parts : List Char × List Char) : Except Unit Unit :=
  if shallow then .ok () else t.rmtree (t.tmpdir ++ "/" ++ cloneName parts ++ "/.git")

/-- `clone_repo`. -/
def cloneRepo (t : Tools) (shallow : Bool) (url : String) : Run Bool :=
  match cloneSource shallow url with
  | none => ret false
  | some parts =>
      (lift (runAll t [] (cloneCommands t shallow parts))).bind fun ok =>
        if ok then
          (lift (removeHistory t shallow parts)).bind fun _ =>
            pack t (cloneCommands t shallow parts) (cloneName parts)
        else ret false

/-- The directory and the revision that a URL of `export_svn` names. -/
def svnSource (t : Tools) (url : String) : Option (List Char × List Char) :=
  let parts := splitLast (url.toList.drop "svn+".length)
  if !url.toList.contains '#' then none
  else if !t.isdecimal (String.ofList parts.2) then none
  else some parts

/-- `export_name` of `export_svn`. -/
def svnName (parts : List Char × List Char) : String :=
  String.ofList (lastPart parts.1 ++ "-r".toList ++ parts.2)

/-- The command of `export_svn`. -/
def svnCommands (t : Tools) (parts : List Char × List Char) : List (List String) :=
  [["svn", "export", "--quiet", "-r", String.ofList parts.2, String.ofList parts.1,
    t.tmpdir ++ "/" ++ svnName parts]]

/-- `export_svn`. -/
def exportSvn (t : Tools) (url : String) : Run Bool :=
  match svnSource t url with
  | none => ret false
  | some parts =>
      (lift (runAll t [] (svnCommands t parts))).bind fun ok =>
        if ok then pack t (svnCommands t parts) (svnName parts) else ret false

/-- `fetch`. -/
def fetch (t : Tools) (url : String) : Run Bool :=
  if "svn+".toList.isPrefixOf url.toList then exportSvn t url
  else if "git-full+".toList.isPrefixOf url.toList then cloneRepo t false url
  else if "git+".toList.isPrefixOf url.toList then cloneRepo t true url
  else downloadFile t url

/-- The loop of `main` over the sources. -/
def fetchFirst (t : Tools) : List String → Run Nat
  | [] => ret 1
  | url :: urls => (fetch t url).bind fun ok => if ok then ret 0 else fetchFirst t urls

/-- What `main` reads of `META`. -/
structure Meta where
  urls : List String
  provides : List String

/-- `main`, with the `META` that is set. -/
def main (t : Tools) : Option Meta → Run Nat
  | none => ret 1
  | some info =>
      if info.urls.isEmpty || info.provides.isEmpty then ret 1 else fetchFirst t info.urls

/-! ## What a source yields -/

/-- What comes of a source: its data, nothing, or an exception. -/
inductive Outcome where
  | delivered (data : Bytes)
  | failed
  | raised

/-- The output behind an outcome. -/
def Outcome.dest (before : Option Bytes) : Outcome → Option Bytes
  | delivered data => some data
  | failed => before
  | raised => before

/-- What `fetch` returns. -/
def Outcome.found : Outcome → Except Unit Bool
  | delivered _ => .ok true
  | failed => .ok false
  | raised => .error ()

/-- What `main` returns. -/
def Outcome.status : Outcome → Except Unit Nat
  | delivered _ => .ok 0
  | failed => .ok 1
  | raised => .error ()

/-- The whole of a stream. -/
def Stream.whole (s : Stream) : Option Bytes := if s.broken then none else some s.chunks.flatten

/-- The whole of what a URL serves, if it has the length that is declared. -/
def served (t : Tools) (url : String) : Option Bytes :=
  match t.urlopen url with
  | .error _ => none
  | .ok response =>
      match response.length, response.body.whole with
      | .ok expected, some data => if expected.any (· != data.length) then none else some data
      | _, _ => none

def downloaded (t : Tools) (url : String) : Outcome :=
  match served t url with
  | some data => .delivered data
  | none => .failed

def packed (t : Tools) (commands : List (List String)) (exportName : String) : Outcome :=
  match (t.tar commands exportName).whole with
  | some data => .delivered data
  | none => .raised

def cloned (t : Tools) (shallow : Bool) (url : String) : Outcome :=
  match cloneSource shallow url with
  | none => .failed
  | some parts =>
      match runAll t [] (cloneCommands t shallow parts), removeHistory t shallow parts with
      | .error _, _ => .raised
      | .ok false, _ => .failed
      | .ok true, .error _ => .raised
      | .ok true, .ok _ => packed t (cloneCommands t shallow parts) (cloneName parts)

def exported (t : Tools) (url : String) : Outcome :=
  match svnSource t url with
  | none => .failed
  | some parts =>
      match runAll t [] (svnCommands t parts) with
      | .error _ => .raised
      | .ok false => .failed
      | .ok true => packed t (svnCommands t parts) (svnName parts)

/-- What comes of a URL. -/
def outcome (t : Tools) (url : String) : Outcome :=
  if "svn+".toList.isPrefixOf url.toList then exported t url
  else if "git-full+".toList.isPrefixOf url.toList then cloned t false url
  else if "git+".toList.isPrefixOf url.toList then cloned t true url
  else downloaded t url

/-- The first outcome that is not a failure. -/
def firstOutcome (t : Tools) : List String → Outcome
  | [] => .failed
  | url :: urls =>
      match outcome t url with
      | .failed => firstOutcome t urls
      | o => o

/-! ## A temporary file -/

/-- A course with the temporary file: the output is left as it was, with an exception, or it is
replaced at once. -/
structure Turn (c : Course World Unit Unit) (before data : Option Bytes) : Prop where
  passed : ∀ w ∈ c.passed, w.dest = before ∨ w.dest = data.or before
  dest : c.state.dest = data.or before
  result : c.result = if data.isSome then .ok () else .error ()

theorem lift_ok_bind {α β : Type} (a : α) (next : α → Run β) :
    (lift (.ok a) : Run α).bind next = next a := by
  funext w
  simp [Prog.bind, lift]

theorem look_bind {α β : Type} (f : World → α) (next : α → Run β) (w : World) :
    (look f : Run α).bind next w = next (f w) w := by
  simp [Prog.bind, look]

theorem turn_raise (w : World) {before : Option Bytes} (h : w.dest = before) :
    Turn ⟨[], w, .error ()⟩ before none :=
  ⟨by simp, h, rfl⟩

theorem turn_replace (before : Option Bytes) (data : Bytes) :
    Turn (replace ⟨before, some data⟩) before (some data) := by
  refine ⟨fun w hw => .inr ?_, rfl, rfl⟩
  obtain rfl := List.mem_singleton.mp hw
  rfl

theorem each_append (before : Option Bytes) (chunks : List Bytes) (data : Bytes) :
    ((each chunks append : Run Unit) ⟨before, some data⟩).result = .ok () ∧
      ((each chunks append : Run Unit) ⟨before, some data⟩).state =
        ⟨before, some (data ++ chunks.flatten)⟩ ∧
      ∀ w ∈ ((each chunks append : Run Unit) ⟨before, some data⟩).passed, w.dest = before := by
  induction chunks generalizing data with
  | nil => exact ⟨rfl, by rw [List.flatten_nil, List.append_nil]; rfl, by simp [each, ret]⟩
  | cons c chunks ih =>
      obtain ⟨hresult, hstate, hpassed⟩ := ih (data ++ c)
      rw [List.append_assoc] at hstate
      refine ⟨hresult, hstate, fun w hw => ?_⟩
      rcases List.mem_cons.mp hw with rfl | hw
      · rfl
      · exact hpassed w hw

theorem turn_copy {stream : Stream} {next : Unit → Run Unit} {before data : Option Bytes}
    (hbroken : stream.broken = true → data = none)
    (hnext : stream.broken = false → Turn (next () ⟨before, some stream.chunks.flatten⟩) before data) :
    Turn ((copy stream).bind next ⟨before, some []⟩) before data := by
  obtain ⟨hresult, hstate, hpassed⟩ := each_append before stream.chunks []
  rw [List.nil_append] at hstate
  cases hb : stream.broken with
  | true =>
      obtain rfl := hbroken hb
      have hcopy : (copy stream).bind next ⟨before, some []⟩ =
          ⟨((each stream.chunks append : Run Unit) ⟨before, some []⟩).passed ++ [],
            ⟨before, some stream.chunks.flatten⟩, .error ()⟩ := by
        simp only [copy, Prog.bind, hresult, hstate, hb, if_true, raise]
      rw [hcopy, List.append_nil]
      exact ⟨fun w hw => .inl (hpassed w hw), rfl, rfl⟩
  | false =>
      have hturn := hnext hb
      have hcopy : (copy stream).bind next ⟨before, some []⟩ =
          ⟨((each stream.chunks append : Run Unit) ⟨before, some []⟩).passed ++ [] ++
            (next () ⟨before, some stream.chunks.flatten⟩).passed,
            (next () ⟨before, some stream.chunks.flatten⟩).state,
            (next () ⟨before, some stream.chunks.flatten⟩).result⟩ := by
        simp only [copy, Prog.bind, hresult, hstate, hb, Bool.false_eq_true, if_false, ret]
      rw [hcopy, List.append_nil]
      refine ⟨fun w hw => ?_, hturn.dest, hturn.result⟩
      rcases List.mem_append.mp hw with hw | hw
      · exact .inl (hpassed w hw)
      · exact hturn.passed w hw

/-- The temporary file is removed wherever the body stops, and the output is what the body left. -/
theorem temporaryOutput_spec {body : Run Unit} {before data : Option Bytes}
    (h : Turn (body ⟨before, some []⟩) before data) :
    Turn (temporaryOutput body ⟨before, none⟩) before data ∧
      (temporaryOutput body ⟨before, none⟩).state = ⟨data.or before, none⟩ := by
  have hrun : temporaryOutput body ⟨before, none⟩ =
      ⟨⟨before, some []⟩ :: ((body ⟨before, some []⟩).passed ++
          (⟨before, some []⟩ :: (body ⟨before, some []⟩).passed).flatMap
            (fun w => [{ w with tmp := none }]) ++
          [{ (body ⟨before, some []⟩).state with tmp := none }]),
        { (body ⟨before, some []⟩).state with tmp := none },
        (body ⟨before, some []⟩).result⟩ := by
    cases hr : (body ⟨before, some []⟩).result <;>
      simp [temporaryOutput, Prog.bind, act, unlink, Prog.finally', hr]
  rw [hrun]
  refine ⟨⟨fun w hw => ?_, h.dest, h.result⟩, by rw [← h.dest]⟩
  simp only [List.mem_cons, List.mem_append, List.mem_flatMap, List.not_mem_nil, or_false] at hw
  rcases hw with rfl | (hw | ⟨v, rfl | hv, rfl⟩) | rfl
  · exact .inl rfl
  · exact h.passed w hw
  · exact .inl rfl
  · exact h.passed v hv
  · exact .inr h.dest

/-! ## A source -/

/-- A course from a world without a temporary file: the output changes at once, if at all, and no
temporary file is left. -/
structure Does {α : Type} (c : Course World Unit α) (before : Option Bytes) (o : Outcome)
    (result : Except Unit α) : Prop where
  passed : ∀ w ∈ c.passed, w.dest = before ∨ w.dest = o.dest before
  state : c.state = ⟨o.dest before, none⟩
  result : c.result = result

theorem does_ret {α : Type} (a : α) (before : Option Bytes) :
    Does ((ret a : Run α) ⟨before, none⟩) before .failed (.ok a) :=
  ⟨by simp [ret], rfl, rfl⟩

theorem does_raise {α : Type} (next : α → Run Bool) (before : Option Bytes) :
    Does ((lift (.error ()) : Run α).bind next ⟨before, none⟩) before .raised (.error ()) :=
  ⟨by simp [Prog.bind, lift], rfl, rfl⟩

theorem downloadBody_turn (t : Tools) (url : String) (before : Option Bytes) :
    Turn ((lift (t.urlopen url)).bind (fun response =>
      (lift response.length).bind fun expected =>
      (copy response.body).bind fun _ =>
      (look fun w => (w.tmp.getD []).length).bind fun got =>
      if expected.any (· != got) then raise () else replace) ⟨before, some []⟩) before
      (served t url) := by
  unfold served
  cases t.urlopen url with
  | error e => exact turn_raise _ rfl
  | ok response =>
      rw [lift_ok_bind]
      dsimp only
      cases response.length with
      | error e => exact turn_raise _ rfl
      | ok expected =>
          rw [lift_ok_bind]
          refine turn_copy (fun hb => by rw [Stream.whole, if_pos hb]) fun hb => ?_
          rw [Stream.whole, if_neg (by rw [hb]; exact Bool.false_ne_true)]
          rw [look_bind]
          dsimp only [Option.getD_some]
          split_ifs with hlength
          · exact turn_raise _ rfl
          · exact turn_replace before _

/-- What comes of a temporary file and then `return True`. -/
theorem temporaryOutput_ret {body : Run Unit} {before data : Option Bytes}
    (h : Turn (body ⟨before, some []⟩) before data) :
    (∀ w ∈ ((temporaryOutput body).bind (fun _ => ret true) ⟨before, none⟩).passed,
        w.dest = before ∨ w.dest = data.or before) ∧
      ((temporaryOutput body).bind (fun _ => ret true) ⟨before, none⟩).state = ⟨data.or before, none⟩ ∧
      ((temporaryOutput body).bind (fun _ => ret true) ⟨before, none⟩).result =
        if data.isSome then .ok true else .error () := by
  obtain ⟨hturn, hstate⟩ := temporaryOutput_spec h
  have hresult := hturn.result
  cases data with
  | none =>
      have hrun : (temporaryOutput body).bind (fun _ => ret true) ⟨before, none⟩ =
          ⟨(temporaryOutput body ⟨before, none⟩).passed, (temporaryOutput body ⟨before, none⟩).state,
            .error ()⟩ := by
        simp only [Prog.bind, hresult]
        rfl
      rw [hrun]
      exact ⟨hturn.passed, hstate, rfl⟩
  | some d =>
      have hrun : (temporaryOutput body).bind (fun _ => ret true) ⟨before, none⟩ =
          ⟨(temporaryOutput body ⟨before, none⟩).passed, (temporaryOutput body ⟨before, none⟩).state,
            .ok true⟩ := by
        simp only [Prog.bind, hresult, ret, Option.isSome_some, if_true, List.append_nil]
      rw [hrun]
      exact ⟨hturn.passed, hstate, rfl⟩

theorem downloadFile_does (t : Tools) (url : String) (before : Option Bytes) :
    Does (downloadFile t url ⟨before, none⟩) before (downloaded t url) (downloaded t url).found := by
  obtain ⟨hpassed, hstate, hresult⟩ := temporaryOutput_ret (downloadBody_turn t url before)
  unfold downloadFile orFalse downloaded
  cases hserved : served t url with
  | none =>
      rw [hserved] at hpassed hstate hresult
      rw [hresult]
      exact ⟨hpassed, hstate, rfl⟩
  | some data =>
      rw [hserved] at hpassed hstate hresult
      rw [hresult]
      exact ⟨hpassed, hstate, hresult⟩

theorem pack_does (t : Tools) (commands : List (List String)) (exportName : String)
    (before : Option Bytes) :
    Does (pack t commands exportName ⟨before, none⟩) before (packed t commands exportName)
      (packed t commands exportName).found := by
  have hturn : Turn ((copy (t.tar commands exportName)).bind (fun _ => replace) ⟨before, some []⟩) before
      (t.tar commands exportName).whole :=
    turn_copy (fun hb => by rw [Stream.whole, if_pos hb]) fun hb => by
      rw [Stream.whole, if_neg (by rw [hb]; exact Bool.false_ne_true)]
      exact turn_replace before _
  obtain ⟨hpassed, hstate, hresult⟩ := temporaryOutput_ret hturn
  unfold pack packed
  cases hwhole : (t.tar commands exportName).whole with
  | none =>
      rw [hwhole] at hpassed hstate hresult
      exact ⟨hpassed, hstate, hresult⟩
  | some data =>
      rw [hwhole] at hpassed hstate hresult
      exact ⟨hpassed, hstate, hresult⟩

theorem cloneRepo_does (t : Tools) (shallow : Bool) (url : String) (before : Option Bytes) :
    Does (cloneRepo t shallow url ⟨before, none⟩) before (cloned t shallow url)
      (cloned t shallow url).found := by
  unfold cloneRepo cloned
  cases cloneSource shallow url with
  | none => exact does_ret false before
  | some parts =>
      dsimp only
      cases runAll t [] (cloneCommands t shallow parts) with
      | error e => exact does_raise _ before
      | ok ok =>
          rw [lift_ok_bind]
          cases ok with
          | false => exact does_ret false before
          | true =>
              rw [if_pos rfl]
              cases removeHistory t shallow parts with
              | error e => exact does_raise _ before
              | ok u =>
                  rw [lift_ok_bind]
                  exact pack_does t _ _ before

theorem exportSvn_does (t : Tools) (url : String) (before : Option Bytes) :
    Does (exportSvn t url ⟨before, none⟩) before (exported t url) (exported t url).found := by
  unfold exportSvn exported
  cases svnSource t url with
  | none => exact does_ret false before
  | some parts =>
      dsimp only
      cases runAll t [] (svnCommands t parts) with
      | error e => exact does_raise _ before
      | ok ok =>
          rw [lift_ok_bind]
          cases ok with
          | false => exact does_ret false before
          | true => exact pack_does t _ _ before

/-- One source. -/
theorem fetch_does (t : Tools) (url : String) (before : Option Bytes) :
    Does (fetch t url ⟨before, none⟩) before (outcome t url) (outcome t url).found := by
  unfold fetch outcome
  split_ifs
  · exact exportSvn_does t url before
  · exact cloneRepo_does t false url before
  · exact cloneRepo_does t true url before
  · exact downloadFile_does t url before

/-! ## All sources -/

/-- The sources in their order. -/
theorem fetchFirst_does (t : Tools) (urls : List String) (before : Option Bytes) :
    Does (fetchFirst t urls ⟨before, none⟩) before (firstOutcome t urls)
      (firstOutcome t urls).status := by
  induction urls with
  | nil => exact does_ret 1 before
  | cons url urls ih =>
      obtain ⟨hpassed, hstate, hresult⟩ := fetch_does t url before
      rw [fetchFirst, firstOutcome]
      cases ho : outcome t url with
      | delivered data =>
          rw [ho] at hpassed hstate hresult
          have hrun : (fetch t url).bind (fun ok => if ok then ret 0 else fetchFirst t urls)
              ⟨before, none⟩ = ⟨(fetch t url ⟨before, none⟩).passed, ⟨some data, none⟩, .ok 0⟩ := by
            simp only [Prog.bind, hresult, Outcome.found, hstate, Outcome.dest, if_true, ret,
              List.append_nil]
          rw [hrun]
          exact ⟨hpassed, rfl, rfl⟩
      | raised =>
          rw [ho] at hpassed hstate hresult
          have hrun : (fetch t url).bind (fun ok => if ok then ret 0 else fetchFirst t urls)
              ⟨before, none⟩ = ⟨(fetch t url ⟨before, none⟩).passed, ⟨before, none⟩, .error ()⟩ := by
            simp only [Prog.bind, hresult, Outcome.found, hstate, Outcome.dest]
          rw [hrun]
          exact ⟨hpassed, rfl, rfl⟩
      | failed =>
          rw [ho] at hpassed hstate hresult
          have hrun : (fetch t url).bind (fun ok => if ok then ret 0 else fetchFirst t urls)
              ⟨before, none⟩ = ⟨(fetch t url ⟨before, none⟩).passed ++
                (fetchFirst t urls ⟨before, none⟩).passed, (fetchFirst t urls ⟨before, none⟩).state,
                (fetchFirst t urls ⟨before, none⟩).result⟩ := by
            simp only [Prog.bind, hresult, Outcome.found, hstate, Outcome.dest, Bool.false_eq_true,
              if_false]
          rw [hrun]
          refine ⟨fun w hw => ?_, ih.state, ih.result⟩
          rcases List.mem_append.mp hw with hw | hw
          · exact .inl ((hpassed w hw).elim id id)
          · exact ih.passed w hw

/-- What comes of `META`. -/
def mainOutcome (t : Tools) : Option Meta → Outcome
  | none => .failed
  | some info => if info.provides.isEmpty then .failed else firstOutcome t info.urls

/-- **The output changes at once.** Wherever the downloader is stopped, the output is what it was, or
the whole data of the first source that does not fail; it ends with the one or the other, its status
tells which, and it leaves no temporary file. -/
theorem main_atomic (t : Tools) (info : Option Meta) (before : Option Bytes) :
    (∀ w ∈ (main t info).stops ⟨before, none⟩,
        w.dest = before ∨ w.dest = (mainOutcome t info).dest before) ∧
      (main t info ⟨before, none⟩).state = ⟨(mainOutcome t info).dest before, none⟩ ∧
      (main t info ⟨before, none⟩).result = (mainOutcome t info).status := by
  have hdoes : Does (main t info ⟨before, none⟩) before (mainOutcome t info)
      (mainOutcome t info).status := by
    cases info with
    | none => exact does_ret 1 before
    | some info =>
        rw [main, mainOutcome]
        cases hprovides : info.provides.isEmpty with
        | true =>
            rw [Bool.or_true, if_pos rfl, if_pos rfl]
            exact does_ret 1 before
        | false =>
            rw [Bool.or_false, if_neg Bool.false_ne_true]
            cases info.urls with
            | nil => exact does_ret 1 before
            | cons url urls => exact fetchFirst_does t (url :: urls) before
  refine ⟨fun w hw => ?_, hdoes.state, hdoes.result⟩
  simp only [stops, List.mem_append, List.mem_cons, List.not_mem_nil, or_false] at hw
  rcases hw with (rfl | hw) | rfl
  · exact .inl rfl
  · exact hdoes.passed w hw
  · rw [hdoes.state]
    exact .inr rfl

end Mountin.Download

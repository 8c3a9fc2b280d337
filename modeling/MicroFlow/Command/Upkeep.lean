import MicroFlow.Command.Job
import MicroFlow.Settings.Text

/-!
# Commands on settings and cache

* `cacheStats` and `cacheClear` : the report cache of the settings, used or not.
* `writeDefaults`               : writes a settings file.
* `doctor`                      : checks the settings at work.
-/

namespace MicroFlow.Job

/-- The settings and the report cache, even if it is not used. -/
def storedCache (s : Session) (a : Arguments) : Job (Settings × ReportCache) := do
  let settings ← settings s a
  let size := if 0 < settings.cacheSize then settings.cacheSize
    else (Settings.default s.environment).cacheSize
  let c ← orFail StoreError.message
    (ReportCache.fetch { capacity := size } settings.cachePath (← get).files)
  return (settings, c)

/-- Prints the state of the report cache. -/
def cacheStats (s : Session) (a : Arguments) : Job Unit := do
  let (settings, c) ← storedCache s a
  print ("Cache path: " ++ settings.cachePath ++ "\n")
  print ("Enabled: " ++ toString settings.cacheEnabled ++ "\n")
  print ("Reports: " ++ toString c.size ++ " (capacity " ++ toString settings.cacheSize ++ ")\n")

/-- Removes all reports from the cache. -/
def cacheClear (s : Session) (a : Arguments) : Job Unit := do
  let (settings, c) ← storedCache s a
  match ← persist s settings c.clear with
  | some e => fail e.message
  | none => print ("Removed " ++ toString c.size ++ " reports from " ++ settings.cachePath ++ "\n")

/-- Writes a settings file with the defaults.  Without `--yes` somebody would have to be asked. -/
def writeDefaults (s : Session) (a : Arguments) : Job Unit := do
  if !a.isOn "yes" then fail "interactive prompt failed: no terminal, use --yes"
  let env ← environment s
  let settings := Settings.default env
  let path := if a.isOn "global" then Settings.globalPath env else Settings.projectPath
  orFail (fun (e : SettingsFault) => "config validation failed: " ++ e.message) settings.validate
  print (settings.preview path)
  setFiles (← orFail (fun (e : SaveError) => "saving config: " ++ e.message)
    (settings.save path env.files))
  print ("Configuration saved to: " ++ path ++ "\n")

/-- Checks the settings at work. -/
def doctor (s : Session) (a : Arguments) : Job Unit := do
  let settings ← settings s a
  let env ← environment s
  let path := if a.text "config" == "" then Settings.effectivePath env else a.text "config"
  let h := Health.check env false settings path
  print (h.text s.elapsed)
  if h.failed then fail "health check failed: one or more checks reported an error"

end MicroFlow.Job

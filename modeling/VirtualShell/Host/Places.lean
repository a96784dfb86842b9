import VirtualShell.Text.Bytes

/-!
# Where the shell keeps things on the host

The directories below the home directory of the host's user: for the configuration, for the store
and for logs.
-/

namespace VirtualShell.HostPlaces

/-- A path below a directory of the host. -/
def below (directory path : Bytes) : Bytes :=
  if directory.getLast? = some Ascii.slash then directory ++ path
  else directory ++ Ascii.slash :: path

def configurationDirectory (home : Bytes) : Bytes := below home (ascii ".config/vsh")
def dataDirectory (home : Bytes) : Bytes := below home (ascii ".local/share/vsh")
def cacheDirectory (home : Bytes) : Bytes := below home (ascii ".cache/vsh")

/-- The configuration file. -/
def configuration (home : Bytes) : Bytes :=
  below (configurationDirectory home) (ascii "config.json")

/-- The document of the store, unless another is asked for. -/
def store (home : Bytes) : Bytes := below (dataDirectory home) (ascii "vfs.json")

/-- The log of a run that starts at a time. -/
def log (home : Bytes) (now : Int) : Bytes :=
  below (cacheDirectory home)
    (ascii "vsh_debug_" ++ signedDecimal (now.tdiv 1000) ++ ascii ".log")

end VirtualShell.HostPlaces

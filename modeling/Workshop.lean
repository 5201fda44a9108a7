import Workshop.SudokuVerdict
import Workshop.SudokuSession
import Workshop.SudokuRestore
import Workshop.SudokuUnusable
import Workshop.SudokuBuffers
import Workshop.FtpStream
import Workshop.FtpGuest
import Workshop.FtpLinear
import Workshop.FtpLockstep
import Workshop.FtpPipeline
import Workshop.FtpGoodbye
import Workshop.FtpLoading
import Workshop.FtpDeadClients
import Workshop.FtpHandles
import Workshop.FtpReaper
import Workshop.FtpShutdown
import Workshop.FtpRest
import Workshop.SudokuScreen
import Workshop.SudokuExit
import Workshop.FtpListener
import Workshop.OpenConnection
import Workshop.FtpAnyClient
import Workshop.SudokuAnyClient
import Workshop.FtpAnyServer

import Beirdobot.Library.BinaryTree
import Beirdobot.Library.LinkedTree
import Beirdobot.Library.System
import Beirdobot.Library.SqlLexer
import Beirdobot.Library.Ring
import Beirdobot.Library.LinkedSeq
import Beirdobot.Library.WaitGraph
import Beirdobot.Libc
import Beirdobot.LinkedList.Model
import Beirdobot.LinkedList.Spec
import Beirdobot.BTree.Model
import Beirdobot.BTree.Pointers
import Beirdobot.BTree.Edits
import Beirdobot.BTree.Search
import Beirdobot.BTree.Runs
import Beirdobot.Queue.Model
import Beirdobot.Queue.Fifo
import Beirdobot.Queue.Threads
import Beirdobot.Queue.Consumers
import Beirdobot.Transmit.Flood
import Beirdobot.Transmit.FloodRuns
import Beirdobot.Auth.StateMachine
import Beirdobot.Auth.Walks
import Beirdobot.Auth.Sessions
import Beirdobot.Auth.Threads
import Beirdobot.Auth.Moves
import Beirdobot.Auth.Listed
import Beirdobot.Auth.Stored
import Beirdobot.Auth.Chains
import Beirdobot.Auth.Replay
import Beirdobot.Mysql.Query
import Beirdobot.Mysql.Substitution
import Beirdobot.Mysql.Upgrade
import Beirdobot.Mysql.UpgradeRuns
import Beirdobot.Plugins.Model
import Beirdobot.Plugins.Spec
import Beirdobot.Plugins.Reload
import Beirdobot.Plugins.Runs
import Beirdobot.Servers.Model
import Beirdobot.Servers.Steps
import Beirdobot.Servers.Loops
import Beirdobot.Servers.Reload
import Beirdobot.Servers.Runs
import Beirdobot.BTree.Stores
import Beirdobot.Channels.Loads
import Beirdobot.Channels.Reload
import Beirdobot.Channels.Runs
import Beirdobot.FailedReload
import Beirdobot.Curses.LogWindow
import Beirdobot.ActiveTree.Model
import Beirdobot.ActiveTree.Spec
import Beirdobot.BTree.Frame
import Beirdobot.BTree.Keys
import Beirdobot.Clucene
import Beirdobot.Mailbox.Poll
import Beirdobot.Queue.Deadline
import Beirdobot.Queue.Remove
import Beirdobot.BTree.Confined
import Beirdobot.BTree.Duplicates
import Beirdobot.LinkedList.Lists
import Beirdobot.BTree.Trees
import Beirdobot.BTree.Destroy
import Beirdobot.Locking
import Beirdobot.Library.LockPrograms
import Beirdobot.Mailbox.Callbacks
import Beirdobot.Rssfeed.Locks
import Beirdobot.DepthFirst
import Beirdobot.Mysql.Arrays
import Beirdobot.Mysql.Lookups
import Beirdobot.Mysql.QueryLoop
import Beirdobot.Mysql.Rebuild
import Beirdobot.RegexpList.Parse
import Beirdobot.BotCmds.CommandLine
import Beirdobot.BotCmds.Handlers
import Beirdobot.Library.Regex
import Beirdobot.RegexpList.BotCmds
import Beirdobot.Rssfeed.Poll
import Beirdobot.Clucene.Escape
import Beirdobot.Curses.WordWrap
import Beirdobot.Dns.Aaaa
import Beirdobot.Dns.FindRR
import Beirdobot.Dns.Replies
import Beirdobot.Logging
import Beirdobot.Mailbox.Report
import Beirdobot.Mysql.Nicks
import Beirdobot.Transmit.FloodList
import Beirdobot.Curses.FormItems
import Beirdobot.Curses.FormPages
import Beirdobot.Curses.Menus
import Beirdobot.Trac
import Beirdobot.Channels.Joins
import Beirdobot.Library.Jobs
import Beirdobot.Mysql.Presence
import Beirdobot.Mysql.PresenceRuns
import Beirdobot.Library.Registry
import Beirdobot.Luascript
import Beirdobot.ActiveTree.Agenda
import Beirdobot.Auth.Logins
import Beirdobot.Botnet.Connection
import Beirdobot.Rssfeed.Active
import Beirdobot.Rssfeed.ActiveRuns
import Beirdobot.Rssfeed.Posts
import Beirdobot.ThreadApi.Model
import Beirdobot.ThreadApi.Registry
import Beirdobot.ThreadApi.Signals
